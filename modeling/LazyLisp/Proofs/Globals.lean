import LazyLisp.Proofs.Equality
import LazyLisp.Proofs.Evolution

namespace LazyLisp

namespace Namespaces

theorem current_define (n : Namespaces) (symbol : String) (v : Value) :
    (n.define symbol v).current = n.current := by
  simp only [define, write]
  split <;> rfl

theorem pending_define (n : Namespaces) (symbol : String) (v : Value) :
    (n.define symbol v).pending = n.pending := by
  simp only [define, write]
  split <;> rfl

theorem dealias_define (n : Namespaces) (symbol : String) (v : Value) (qualifier : String) :
    (n.define symbol v).dealias qualifier = n.dealias qualifier := by
  simp only [define, write]
  split <;> rfl

theorem get?_tables_define {n : Namespaces} {symbol space name : String}
    (ht : n.target symbol = (some space, name)) (v : Value) {other : String} (ho : space ≠ other) :
    (n.define symbol v).tables.get? other = n.tables.get? other := by
  simp only [define, ht, write]
  exact Bindings.get?_insert_of_ne _ ho _

theorem qualified_of_cell? {n : Namespaces} {qualifier name symbol : String} {v : Value}
    (h : n.cell? (some (n.dealias qualifier)) name = some v) :
    n.qualified qualifier name symbol = .ok v := by
  obtain ⟨table, ht, hv⟩ := Option.bind_eq_some_iff.mp h
  simp only [qualified, ht, hv]

theorem global?_of_cell? {n : Namespaces} {name : String} {v : Value}
    (h : n.cell? n.current name = some v) : n.global? name = some v := by
  cases hc : n.current with
  | none =>
    rw [hc] at h
    have hi : n.internal.get? name = some v := h
    simp [global?, hc, hi]
  | some space =>
    rw [hc] at h
    have hb : ((n.tables.get? space).bind (·.get? name)) = some v := h
    simp [global?, hc, hb]

end Namespaces

namespace World

/-- What stands between a symbol and the place to which its definitions go: a local binding for a bare
one, for a qualified one an alias of another namespace. -/
def hides (w : World) (symbol : String) : Bool :=
  match splitSymbol symbol with
  | (some qualifier, _) => decide (w.namespaces.dealias qualifier ≠ qualifier)
  | (none, name) => (w.local? name).isSome

theorem resolve_define_hidden {w : World} {symbol : String} (h : w.hides symbol = true) (v : Value) :
    (w.define symbol v).resolve symbol = w.resolve symbol := by
  cases hs : splitSymbol symbol with
  | mk qualifier name =>
    cases qualifier with
    | some qualifier =>
      have hq : w.namespaces.dealias qualifier ≠ qualifier := by simpa [hides, hs] using h
      have ht : w.namespaces.target symbol = (some qualifier, name) := by
        simp only [Namespaces.target, hs]
      have hn := Namespaces.get?_tables_define ht v hq.symm
      simp only [resolve, hs, Namespaces.qualified, define, Namespaces.dealias_define, hn]
    | none =>
      obtain ⟨x, hx⟩ : ∃ x, w.local? name = some x := by
        simpa [hides, hs, Option.isSome_iff_exists] using h
      have hx' : (w.define symbol v).local? name = some x := hx
      simp only [resolve, hs, hx, hx', Option.some_or]

theorem resolve_define_of_not_hidden {w : World} {symbol : String} (h : w.hides symbol = false)
    (v : Value) : (w.define symbol v).resolve symbol = .ok v := by
  have hw := Namespaces.cell?_define w.namespaces symbol v
  cases hs : splitSymbol symbol with
  | mk qualifier name =>
    cases qualifier with
    | some qualifier =>
      have hq : w.namespaces.dealias qualifier = qualifier := by simpa [hides, hs] using h
      have hc := hw (some qualifier) name
      rw [if_pos (by simp only [Namespaces.target, hs])] at hc
      have hd : (w.define symbol v).namespaces.dealias qualifier = qualifier :=
        (Namespaces.dealias_define w.namespaces symbol v qualifier).trans hq
      simp only [resolve, hs]
      exact Namespaces.qualified_of_cell? (hd.symm ▸ hc)
    | none =>
      have hl : w.local? name = none := by simpa [hides, hs] using h
      have hx : (w.define symbol v).local? name = none := hl
      have hc := hw w.namespaces.current name
      rw [if_pos (by simp only [Namespaces.target, hs])] at hc
      have hg : (w.define symbol v).namespaces.global? name = some v :=
        Namespaces.global?_of_cell? ((Namespaces.current_define w.namespaces symbol v).symm ▸ hc)
      simp only [resolve, hs, hx, hg, Option.none_or]

end World

namespace Kernel

theorem eval_symbol_of_resolve {w : World} {name : String} {v : Value} (h : w.resolve name = .ok v)
    (n : Nat) : (withFuel (n + 1)).eval (.symbol name) w = .value v w := by
  change Eval.ofExcept (w.resolve name) w = _
  rw [h]
  rfl

theorem eval_list_of_head {w : World} {head : Value} {args : List Value} {i n : Nat}
    {f : Callable Value} (h : (withFuel (n + 1)).eval head w = .value (.callable i f) w) :
    (withFuel (n + 2)).eval (.list (head :: args)) w = (withFuel n).call f (.ofForms args) w :=
  Eval.bind_of_value h

def definitionForm (symbol : String) (v : Value) : Value :=
  .list [.symbol "def", .symbol symbol, .list [.symbol "quote", v]]

theorem eval_definitionForm {w : World} {i j : Nat}
    (hd : w.resolve "def" = .ok (.callable i (.special .definition)))
    (hq : w.resolve "quote" = .ok (.callable j (.special .quotation))) (n : Nat) (symbol : String)
    (v : Value) :
    (withFuel (n + 4)).eval (definitionForm symbol v) w =
      .value (.symbol symbol) (w.define symbol v) := by
  have hv : (withFuel (n + 2)).eval (.list [.symbol "quote", v]) w = .value v w :=
    eval_list_of_head (eval_symbol_of_resolve hq n)
  refine (eval_list_of_head (eval_symbol_of_resolve hd (n + 2))).trans ?_
  have hr : (withFuel (n + 2)).requireValue (.ofForms [.list [.symbol "quote", v]]) "def" 1 w =
      .value (v, .ofForms []) w := Eval.bind_of_value hv
  exact Eval.bind_of_value hr

/-- A definition gives its symbol the new value, unless the symbol is hidden, when it goes on meaning what
it meant. It writes one place, and every other binding stays. -/
theorem eval_definition_resolve {w : World} {i j : Nat}
    (hd : w.resolve "def" = .ok (.callable i (.special .definition)))
    (hq : w.resolve "quote" = .ok (.callable j (.special .quotation))) (n : Nat) (symbol : String)
    (v : Value) :
    ∃ u, (withFuel (n + 4)).eval (definitionForm symbol v) w = .value (.symbol symbol) u ∧
      u.namespaces.current = w.namespaces.current ∧
      (w.hides symbol = false → u.resolve symbol = .ok v) ∧
      (w.hides symbol = true → u.resolve symbol = w.resolve symbol) ∧
      ∀ space name, u.namespaces.cell? space name =
        if w.namespaces.target symbol = (space, name) then some v
        else w.namespaces.cell? space name := by
  refine ⟨w.define symbol v, eval_definitionForm hd hq n symbol v, ?_, ?_, ?_, ?_⟩
  · exact Namespaces.current_define w.namespaces symbol v
  · intro h
    exact World.resolve_define_of_not_hidden h v
  · intro h
    exact World.resolve_define_hidden h v
  · intro space name
    exact Namespaces.cell?_define w.namespaces symbol v space name

def aliasWorld : World :=
  { World.empty with
    namespaces := ((((Namespaces.empty.define "def" (.callable 0 (.special .definition))).define "quote"
      (.callable 1 (.special .quotation))).define "m/x" (.int 1)).setCurrent (some "u")).addAlias "a" "m" }

theorem eval_definition_resolve_qualified :
    ∃ u, (withFuel 4).eval (definitionForm "m/x" (.int 2)) aliasWorld = .value (.symbol "m/x") u ∧
      u.resolve "m/x" = .ok (.int 2) ∧ u.resolve "a/x" = .ok (.int 2) ∧
      u.namespaces.cell? none "quote" = aliasWorld.namespaces.cell? none "quote" := by
  obtain ⟨u, hu, -, hr, -, hc⟩ := eval_definition_resolve (w := aliasWorld) rfl rfl 0 "m/x" (.int 2)
  refine ⟨u, hu, hr (by decide +kernel), ?_, ?_⟩
  · cases hu.symm.trans (eval_definitionForm (w := aliasWorld) rfl rfl 0 "m/x" (.int 2))
    rfl
  · rw [hc, if_neg (by decide +kernel)]

theorem eval_definition_alias :
    ∃ u, (withFuel 4).eval (definitionForm "a/x" (.int 2)) aliasWorld = .value (.symbol "a/x") u ∧
      u.local? "a/x" = none ∧ u.namespaces.current = aliasWorld.namespaces.current ∧
      u.resolve "a/x" = .ok (.int 1) ∧ u.namespaces.cell? (some "a") "x" = some (.int 2) := by
  refine ⟨_, eval_definitionForm (w := aliasWorld) rfl rfl 0 "a/x" (.int 2), ?_⟩
  exact ⟨rfl, rfl, rfl, rfl⟩

end Kernel

namespace Namespaces

def Binds (n : Namespaces) (space : Option String) (name : String) : Prop :=
  (n.cell? space name).isSome = true

def Remakes (n : Namespaces) (key space : String) : Prop :=
  ∃ setup, n.pending.get? key = some setup ∧ ∃ members, (space, members) ∈ setup.modules key

theorem binds_define {n : Namespaces} {space : Option String} {name : String}
    (h : n.Binds space name) (symbol : String) (v : Value) : (n.define symbol v).Binds space name := by
  simp only [Binds, cell?_define]
  split
  · rfl
  · exact h

theorem cell?_setCurrent (n : Namespaces) (entered space : Option String) (name : String) :
    (n.setCurrent entered).cell? space name = n.cell? space name := by
  cases entered with
  | none => rfl
  | some s =>
    cases space with
    | none => rfl
    | some space =>
      by_cases hs : s = space
      · subst hs
        cases ht : n.tables.get? s <;> simp [setCurrent, cell?, table, ht]
      · simp [setCurrent, cell?, Bindings.get?_insert_of_ne _ hs]

theorem pending_createModule (n : Namespaces) (space : String) (members : List (String × Value)) :
    (n.createModule space members).pending = n.pending := by
  refine List.foldlRecOn members _ (motive := fun m : Namespaces => m.pending = n.pending) rfl ?_
  intro m hm member _
  exact (pending_define m _ _).trans hm

theorem binds_createModule {n : Namespaces} {space : Option String} {name : String}
    (h : n.Binds space name) (made : String) (members : List (String × Value)) :
    (n.createModule made members).Binds space name ∨ space = some made := by
  by_cases hs : space = some made
  · exact .inr hs
  · have he : Binds { n with tables := n.tables.insert made .empty } space name := by
      cases space with
      | none => exact h
      | some space =>
        have hne : made ≠ space := by
          rintro rfl
          exact hs rfl
        simpa [Binds, cell?, Bindings.get?_insert_of_ne _ hne] using h
    refine .inl (List.foldlRecOn members _ (motive := fun m : Namespaces => m.Binds space name) he ?_)
    intro m hm member _
    exact binds_define hm _ _

theorem binds_createModules {n : Namespaces} {space : Option String} {name : String}
    (h : n.Binds space name) (modules : List (String × List (String × Value))) :
    (modules.foldl (fun n m => n.createModule m.1 m.2) n).Binds space name ∨
      ∃ m ∈ modules, space = some m.1 := by
  induction modules generalizing n with
  | nil => exact .inl h
  | cons m modules ih =>
    rcases binds_createModule h m.1 m.2 with hm | hs
    · rcases ih hm with hb | ⟨m', hm', hs⟩
      · exact .inl hb
      · exact .inr ⟨m', List.mem_cons_of_mem m hm', hs⟩
    · exact .inr ⟨m, List.mem_cons_self, hs⟩

/-- No module comes to be pending, and what was bound is bound still or belongs to a namespace that was
made anew. -/
structure Lasts (n m : Namespaces) : Prop where
  pending : ∀ {key setup}, m.pending.get? key = some setup → n.pending.get? key = some setup
  binds : ∀ {space name}, n.Binds space name → m.Binds space name ∨
    ∃ key made, space = some made ∧ n.Remakes key made ∧ m.pending.get? key = none

namespace Lasts

variable {l m n : Namespaces}

theorem of_binds (hp : m.pending = n.pending)
    (hb : ∀ {space name}, n.Binds space name → m.Binds space name) : Lasts n m :=
  ⟨fun hs => hp ▸ hs, fun h => .inl (hb h)⟩

theorem refl (n : Namespaces) : Lasts n n := of_binds rfl id

theorem trans (hlm : Lasts l m) (hmn : Lasts m n) : Lasts l n := by
  refine ⟨fun hs => hlm.pending (hmn.pending hs), fun hl => ?_⟩
  rcases hlm.binds hl with hm | ⟨key, made, hs, hr, hk⟩
  · rcases hmn.binds hm with hn | ⟨key, made, hs, ⟨setup, hp, hmem⟩, hk⟩
    · exact .inl hn
    · exact .inr ⟨key, made, hs, ⟨setup, hlm.pending hp, hmem⟩, hk⟩
  · refine .inr ⟨key, made, hs, hr, ?_⟩
    cases hn : n.pending.get? key with
    | none => rfl
    | some setup =>
      rw [hmn.pending hn] at hk
      cases hk

theorem define (n : Namespaces) (symbol : String) (v : Value) : Lasts n (n.define symbol v) :=
  of_binds (pending_define n symbol v) fun h => binds_define h symbol v

theorem setCurrent (n : Namespaces) (space : Option String) : Lasts n (n.setCurrent space) := by
  refine of_binds ?_ fun {s name} h => ?_
  · cases space <;> rfl
  · rwa [Binds, cell?_setCurrent]

theorem addAlias (n : Namespaces) (name space : String) : Lasts n (n.addAlias name space) :=
  of_binds rfl fun h => h

theorem load (n : Namespaces) (key : String) : Lasts n (n.load key) := by
  cases hk : n.pending.get? key with
  | none =>
    simp only [Namespaces.load, hk]
    exact refl n
  | some setup =>
    simp only [Namespaces.load, hk]
    have hp : ((setup.modules key).foldl (fun m made => createModule m made.1 made.2)
        { n with pending := n.pending.erase key }).pending = n.pending.erase key := by
      refine List.foldlRecOn _ _ (motive := fun m : Namespaces => m.pending = n.pending.erase key) rfl ?_
      intro m hm made _
      exact (pending_createModule m _ _).trans hm
    refine ⟨fun {other _} hs => ?_, fun {space name} h => ?_⟩
    · rw [hp, Bindings.get?_erase] at hs
      split at hs
      · cases hs
      · exact hs
    · have he : Binds { n with pending := n.pending.erase key } space name := h
      rcases binds_createModules he (setup.modules key) with hb | ⟨made, hm, hs⟩
      · exact .inl hb
      · refine .inr ⟨key, made.1, hs, ⟨setup, hk, made.2, hm⟩, ?_⟩
        rw [hp, Bindings.get?_erase, if_pos rfl]

end Lasts

end Namespaces

theorem Change.lasts (c : Change) (w : World) : w.namespaces.Lasts (c.apply w).namespaces := by
  cases c with
  | define symbol v => exact .define _ symbol v
  | enter space => exact .setCurrent _ (some space)
  | load space nickname =>
    cases nickname with
    | none => exact .load _ space
    | some name => exact (Namespaces.Lasts.load _ space).trans (.addAlias _ name space)
  | record log args => exact .refl _
  | want path =>
    simp only [apply, World.want]
    split <;> exact .refl _
  | print text => exact .refl _

theorem evolution_lasts : Evolution fun w v => w.namespaces.Lasts v.namespaces where
  frames := fun _ _ => .refl _
  trans := fun huv hvw => huv.trans hvw
  change := fun c w => c.lasts w
  newCallable := fun _ _ => .refl _
  newCell := fun _ _ => .refl _
  restore := fun h => h.trans (.setCurrent _ _)
  abandon := fun _ _ _ h => h
  complete := fun _ _ _ h _ => h

namespace Kernel

/-- What was bound is bound still, unless a module was loaded that makes its namespace anew. Names in the
internal table always stay bound. -/
theorem eval_keeps_bound {w v : World} {n : Nat} {form : Value}
    (hv : ((withFuel n).eval form w).world? = some v) {space : Option String} {name : String}
    (hb : w.namespaces.Binds space name) :
    v.namespaces.Binds space name ∨ ∃ key made, space = some made ∧
      w.namespaces.Remakes key made ∧ v.namespaces.pending.get? key = none := by
  have hr : Request.after (withFuel n) w (.eval form) = some v := hv
  exact (evolution_lasts.after hr nofun).binds hb

def registeredWorld : World :=
  { World.empty with
    namespaces := ((((Namespaces.empty.define "require" (.callable 0 (.special .requirement))).define "quote"
      (.callable 1 (.special .quotation))).define "m/x" (.int 1)).define "o/x" (.int 1)).register "m"
        (.create [("y", .int 2)]) }

def requireForm : Value := .list [.symbol "require", .list [.symbol "quote", .symbol "m"]]

theorem eval_keeps_bound_elsewhere :
    ∃ v, (withFuel 4).eval requireForm registeredWorld = .value .nil v ∧
      registeredWorld.namespaces.Binds (some "o") "x" ∧ v.namespaces.Binds (some "o") "x" ∧
      v.namespaces.Binds (some "m") "y" := by
  refine ⟨_, rfl, rfl, ?_, rfl⟩
  rcases @eval_keeps_bound registeredWorld _ 4 requireForm rfl (some "o") "x" rfl with
    hb | ⟨key, made, hs, ⟨setup, hp, members, hm⟩, -⟩
  · exact hb
  · cases hs
    have hk : (if "m" = key then some (ModuleSetup.create [("y", .int 2)]) else none) = some setup := hp
    split at hk
    · next he =>
      cases hk
      subst he
      simp [ModuleSetup.create] at hm
    · cases hk

theorem eval_unbinds_remade :
    ∃ v, (withFuel 4).eval requireForm registeredWorld = .value .nil v ∧
      registeredWorld.namespaces.Binds (some "m") "x" ∧ ¬ v.namespaces.Binds (some "m") "x" := by
  refine ⟨_, rfl, rfl, ?_⟩
  exact nofun

end Kernel

end LazyLisp
