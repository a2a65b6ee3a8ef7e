import LazyLisp.Proofs.Evolution

namespace LazyLisp

namespace Namespaces

def Houses (n : Namespaces) (space : String) : Prop := (n.tables.get? space).isSome = true

def Housed (n : Namespaces) : Prop := ∀ s, n.current = some s → n.Houses s

/-- No table is lost. From a namespace one comes to a namespace, and the internal table is not touched on
the way. -/
structure Confined (n m : Namespaces) : Prop where
  houses : ∀ {s}, n.Houses s → m.Houses s
  housed : n.Housed → m.Housed
  inside : n.Housed → n.current.isSome → m.current.isSome ∧ m.internal = n.internal

theorem housed_empty : empty.Housed := nofun

theorem houses_insert (n : Namespaces) (space : String) (table : Bindings Value) {s : String}
    (hs : n.Houses s) : Houses { n with tables := n.tables.insert space table } s := by
  unfold Houses at hs ⊢
  by_cases he : space = s
  · simp [he]
  · simpa [Bindings.get?_insert_of_ne _ he] using hs

namespace Confined

variable {l m n : Namespaces}

theorem refl (n : Namespaces) : Confined n n := ⟨id, id, fun _ hs => ⟨hs, rfl⟩⟩

theorem trans (hlm : Confined l m) (hmn : Confined m n) : Confined l n := by
  refine ⟨fun hs => hmn.houses (hlm.houses hs), fun hl => hmn.housed (hlm.housed hl), fun hl hs => ?_⟩
  obtain ⟨hs', he⟩ := hlm.inside hl hs
  obtain ⟨hs'', he'⟩ := hmn.inside (hlm.housed hl) hs'
  exact ⟨hs'', he'.trans he⟩

theorem of_current_eq (hc : m.current = n.current) (hi : m.internal = n.internal)
    (ht : ∀ {s}, n.Houses s → m.Houses s) : Confined n m :=
  ⟨ht, fun hn s hs => ht (hn s (hc ▸ hs)), fun _ hs => ⟨hc ▸ hs, hi⟩⟩

theorem insertTable (n : Namespaces) (space : String) (table : Bindings Value) :
    Confined n { n with tables := n.tables.insert space table } :=
  of_current_eq rfl rfl fun hs => houses_insert n space table hs

theorem define (n : Namespaces) (symbol : String) (v : Value) : Confined n (n.define symbol v) := by
  unfold Namespaces.define
  generalize hp : n.target symbol = place
  obtain ⟨space, name⟩ := place
  cases space with
  | some space => exact insertTable n space _
  | none =>
    have hc : n.current = none := by
      unfold target at hp
      split at hp
      · cases hp
      · exact congrArg Prod.fst hp
    refine ⟨fun hs => hs, fun hn s hs => hn s hs, fun _ hs => ?_⟩
    rw [hc] at hs
    cases hs

theorem enter (n : Namespaces) (space : String) : Confined n (n.setCurrent (some space)) := by
  refine ⟨fun hs => houses_insert n space _ hs, fun _ s hs => ?_, fun _ _ => ⟨rfl, rfl⟩⟩
  cases hs
  simp [Houses, setCurrent]

theorem addAlias (n : Namespaces) (name space : String) : Confined n (n.addAlias name space) :=
  of_current_eq rfl rfl fun hs => hs

theorem foldl {α : Type} {f : Namespaces → α → Namespaces} (hf : ∀ n a, Confined n (f n a))
    (as : List α) (n : Namespaces) : Confined n (as.foldl f n) := by
  induction as generalizing n with
  | nil => exact refl n
  | cons a as ih => exact (hf n a).trans (ih (f n a))

theorem createModule (n : Namespaces) (space : String) (members : List (String × Value)) :
    Confined n (n.createModule space members) := by
  let f (n : Namespaces) (member : String × Value) := n.define (joinSymbol space member.1) member.2
  have hf (n : Namespaces) (member : String × Value) : Confined n (f n member) := define n _ _
  exact (insertTable n space .empty).trans (foldl hf members _)

theorem load (n : Namespaces) (space : String) : Confined n (n.load space) := by
  let f (n : Namespaces) (m : String × List (String × Value)) := n.createModule m.1 m.2
  have hf (n : Namespaces) (m : String × List (String × Value)) : Confined n (f n m) :=
    createModule n _ _
  unfold Namespaces.load
  split
  · exact refl n
  · next setup _ =>
    have he : Confined n { n with pending := n.pending.erase space } :=
      of_current_eq rfl rfl fun hs => hs
    exact he.trans (foldl hf (setup.modules space) _)

theorem restore (h : Confined n m) : Confined n (m.setCurrent n.current) := by
  cases hc : n.current with
  | none =>
    refine ⟨h.houses, fun _ => nofun, fun _ hs => ?_⟩
    rw [hc] at hs
    cases hs
  | some s =>
    have he := enter m s
    refine ⟨fun hs => he.houses (h.houses hs), fun hn => he.housed (h.housed hn), fun hn hs => ?_⟩
    exact ⟨rfl, (h.inside hn hs).2⟩

end Confined

end Namespaces

theorem Change.confined (c : Change) (w : World) :
    w.namespaces.Confined (c.apply w).namespaces := by
  cases c with
  | define symbol v => exact .define _ symbol v
  | enter space => exact .enter _ space
  | load space nickname =>
    cases nickname with
    | none => exact .load _ space
    | some name => exact (Namespaces.Confined.load _ space).trans (.addAlias _ name space)
  | record log args => exact .refl _
  | want path =>
    simp only [apply, World.want]
    split <;> exact .refl _
  | print text => exact .refl _

theorem evolution_confined : Evolution fun w v => w.namespaces.Confined v.namespaces where
  frames := fun _ _ => .refl _
  trans := fun huv hvw => huv.trans hvw
  change := fun c w => c.confined w
  newCallable := fun _ _ => .refl _
  newCell := fun _ _ => .refl _
  restore := fun h => h.restore
  abandon := fun _ _ _ h => h
  complete := fun _ _ _ h _ => h

inductive HostAction where
  | define (symbol : String) (v : Value)
  | enter (space : Option String)
  | addAlias (name space : String)
  | createModule (space : String) (members : List (String × Value))
  | register (space : String) (setup : ModuleSetup)

def HostAction.apply : HostAction → Namespaces → Namespaces
  | define symbol v, n => n.define symbol v
  | enter space, n => n.setCurrent space
  | addAlias name space, n => n.addAlias name space
  | createModule space members, n => n.createModule space members
  | register space setup, n => n.register space setup

theorem HostAction.housed (a : HostAction) {n : Namespaces} (hn : n.Housed) : (a.apply n).Housed := by
  cases a with
  | define symbol v => exact (Namespaces.Confined.define n symbol v).housed hn
  | enter space =>
    cases space with
    | none => exact nofun
    | some s => exact (Namespaces.Confined.enter n s).housed hn
  | addAlias name space => exact (Namespaces.Confined.addAlias n name space).housed hn
  | createModule space members => exact (Namespaces.Confined.createModule n space members).housed hn
  | register space setup => exact hn

/-- The worlds that a host and the programs it runs come to from a fresh environment. Of what is not a
global binding nothing is assumed. -/
inductive Reachable : World → Prop
  | fresh {w : World} : w.namespaces = .empty → Reachable w
  | request {v w : World} {n : Nat} (r : Request) : Reachable v →
      r.after (Kernel.withFuel n) v = some w → Reachable w
  | act {v w : World} (a : HostAction) : Reachable v →
      w.namespaces = a.apply v.namespaces → Reachable w
  | elsewhere {v w : World} : Reachable v → w.namespaces = v.namespaces → Reachable w

namespace Reachable

theorem housed {w : World} (hw : Reachable w) : w.namespaces.Housed := by
  induction hw with
  | fresh he => exact he ▸ Namespaces.housed_empty
  | @request v w n r _ hr ih =>
    cases r with
    | drop =>
      cases hr
      exact Namespaces.housed_empty
    | _ => exact (evolution_confined.after hr nofun).housed ih
  | act a _ he ih => exact he ▸ a.housed ih
  | elsewhere _ he ih => exact he ▸ ih

theorem acts {v : World} (hv : Reachable v) (actions : List HostAction) :
    Reachable { v with namespaces := actions.foldl (fun n a => a.apply n) v.namespaces } := by
  induction actions generalizing v with
  | nil => exact hv
  | cons a actions ih => exact ih (v := { v with namespaces := a.apply v.namespaces }) (.act a hv rfl)

/-- Inside a namespace the internal table is frozen, and evaluation ends inside a namespace. -/
theorem eval_keeps_internal {w v : World} (hw : Reachable w) {space : String}
    (hs : w.namespaces.current = some space) {n : Nat} {form : Value}
    (hv : ((Kernel.withFuel n).eval form w).world? = some v) :
    v.namespaces.internal = w.namespaces.internal ∧
      ∃ s table, v.namespaces.current = some s ∧ v.namespaces.tables.get? s = some table := by
  have hr : Request.after (Kernel.withFuel n) w (.eval form) = some v := hv
  have hn := evolution_confined.after hr nofun
  obtain ⟨hc, he⟩ := hn.inside hw.housed (by rw [hs]; rfl)
  obtain ⟨s, hc⟩ := Option.isSome_iff_exists.mp hc
  obtain ⟨table, ht⟩ := Option.isSome_iff_exists.mp (hn.housed hw.housed s hc)
  exact ⟨he, s, table, hc, ht⟩

def settingUp : List HostAction :=
  [.define "do" (.callable 0 (.special .sequence)), .define "def" (.callable 1 (.special .definition)),
    .define "ns" (.callable 2 (.special .namespaceChange)),
    .define "require" (.callable 3 (.special .requirement)),
    .define "quote" (.callable 4 (.special .quotation)),
    .register "m" ⟨fun _ => [("b", [("x", .int 1)]), ("a", [])]⟩, .enter (some "a")]

def insideWorld : World :=
  { World.empty with namespaces := settingUp.foldl (fun n a => a.apply n) .empty }

def redefining : Value :=
  .list [.symbol "do",
    .list [.symbol "require", .list [.symbol "quote", .symbol "m"]],
    .list [.symbol "ns", .symbol "b"],
    .list [.symbol "def", .symbol "do", .int 1],
    .symbol "y"]

theorem eval_keeps_internal_redefining :
    ∃ v, Reachable insideWorld ∧ insideWorld.namespaces.current = some "a" ∧
      (Kernel.withFuel 8).eval redefining insideWorld = .failure (.unknownSymbol "y") v ∧
      v.namespaces.global? "do" = some (.int 1) ∧
      v.namespaces.internal = insideWorld.namespaces.internal ∧
      ∃ s table, v.namespaces.current = some s ∧ v.namespaces.tables.get? s = some table := by
  have hw : Reachable insideWorld := acts (v := World.empty) (.fresh rfl) settingUp
  have he : ∃ v, (Kernel.withFuel 8).eval redefining insideWorld = .failure (.unknownSymbol "y") v ∧
      v.namespaces.global? "do" = some (.int 1) := by
    refine ⟨_, rfl, ?_⟩
    rfl
  obtain ⟨v, he, hd⟩ := he
  have hv : ((Kernel.withFuel 8).eval redefining insideWorld).world? = some v := by rw [he]; rfl
  exact ⟨v, hw, rfl, he, hd, eval_keeps_internal hw rfl hv⟩

end Reachable

end LazyLisp
