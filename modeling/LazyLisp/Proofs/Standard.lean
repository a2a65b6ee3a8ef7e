import LazyLisp.Library
import LazyLisp.Proofs.Rules

namespace LazyLisp

def callForm (head : String) (args : List Value) : Value := .list (.symbol head :: args)

def World.addNamed (w : World) (f : Callable Value) : World :=
  (w.addCallable f).2.define f.name (w.addCallable f).1

namespace Prelude

/-- The closure that the form of a definition describes, if it is made without local bindings. -/
def definition? : Form → Option (Closure Value)
  | .list (.symbol "defn" :: .symbol name :: .vector parameters :: body)
  | .list (.symbol "defn" :: .symbol name :: .atom (.str _) :: .vector parameters :: body) =>
    match Closure.arityOf (Form.itemValues parameters) with
    | .ok arity => some ⟨name, arity, Form.itemValues parameters, Form.itemValues body, .empty, false⟩
    | .error _ => none
  | _ => none

def closures : List (Closure Value) := forms.filterMap definition?

end Prelude

namespace Library

def callables : Library → List (Callable Value)
  | core => SpecialForm.all.map .special ++ Primitive.core.map .primitive
  | math => Primitive.math.map .primitive
  | outside => Primitive.outside.map .primitive
  | prelude => Prelude.closures.map .closure

def standardCallables : List (Callable Value) := standard.flatMap callables

theorem installAll_apply (fs : List (Callable Value)) (w : World) :
    installAll fs w = .value () (fs.foldl World.addNamed w) := by
  induction fs generalizing w with
  | nil => rfl
  | cons f fs ih => exact ih (w.addNamed f)

theorem closure_mem_standard {form : Form} (hf : form ∈ Prelude.forms) {c : Closure Value}
    (hc : Prelude.definition? form = some c) : .closure c ∈ standardCallables := by
  refine List.mem_flatMap.mpr ⟨.prelude, by simp [standard], ?_⟩
  exact List.mem_map_of_mem (List.mem_filterMap.mpr ⟨form, hf, hc⟩)

theorem nodup_names : (standardCallables.map Callable.name).Nodup := by
  decide +kernel

theorem splitSymbol_name : ∀ f ∈ standardCallables, splitSymbol f.name = (none, f.name) := by
  have h : ∀ name ∈ standardCallables.map Callable.name, splitSymbol name = (none, name) := by
    decide +kernel
  intro f hf
  exact h f.name (List.mem_map_of_mem hf)

end Library

namespace Closure

variable {find : String → Option Value}

mutual

theorem captureForm_of_none (hf : ∀ x, find x = none) (captured : Bindings Value) :
    ∀ v, captureForm find captured v = captured
  | .atom (.symbol name) => by simp only [captureForm, hf]
  | .list forms => by rw [captureForm, captureForms_of_none hf captured forms]
  | .vector forms => by rw [captureForm, captureForms_of_none hf captured forms]
  | .map entries => by rw [captureForm, captureEntries_of_none hf captured entries]
  | .atom .nil | .atom (.bool _) | .atom (.int _) | .atom (.str _) | .atom (.char _)
  | .atom (.keyword _) | .cons _ _ | .lazy _ | .callable _ _ => rfl

theorem captureForms_of_none (hf : ∀ x, find x = none) (captured : Bindings Value) :
    ∀ forms, captureForms find captured forms = captured
  | [] => rfl
  | v :: rest => by
    rw [captureForms, captureForm_of_none hf captured v, captureForms_of_none hf captured rest]

theorem captureEntries_of_none (hf : ∀ x, find x = none) (captured : Bindings Value) :
    ∀ entries, captureEntries find captured entries = captured
  | [] => rfl
  | (key, value) :: rest => by
    rw [captureEntries, captureForm_of_none hf captured key, captureForm_of_none hf captured value,
      captureEntries_of_none hf captured rest]

end

end Closure

namespace World

structure Bare (w : World) : Prop where
  frames : w.frames = [[]]
  current : w.namespaces.current = none

variable {w : World} {f : Callable Value} {fs : List (Callable Value)} {name : String}

theorem local?_of_frames_eq {frame : Frame} {fs : List Frame} (h : w.frames = frame :: fs) (name : String) :
    w.local? name = localIn? frame name := by
  simp only [local?, topFrame, h]
  rfl

theorem namespaces_addNamed (h : w.Bare) (hs : splitSymbol f.name = (none, f.name)) :
    (w.addNamed f).namespaces =
      { w.namespaces with internal := w.namespaces.internal.insert f.name (.callable w.nextIdentity f) } := by
  simp only [addNamed, define, addCallable, Namespaces.define, Namespaces.target, hs, h.current,
    Namespaces.write]

theorem Bare.addNamed (h : w.Bare) (hs : splitSymbol f.name = (none, f.name)) : (w.addNamed f).Bare :=
  ⟨h.frames, by rw [namespaces_addNamed h hs]; exact h.current⟩

theorem Bare.global? (h : w.Bare) (name : String) :
    w.namespaces.global? name = w.namespaces.internal.get? name := by
  simp only [Namespaces.global?, h.current, Option.bind_none, Option.none_or]

theorem global?_addNamed (h : w.Bare) (hs : splitSymbol f.name = (none, f.name)) (name : String) :
    (w.addNamed f).namespaces.global? name =
      if f.name = name then some (.callable w.nextIdentity f) else w.namespaces.global? name := by
  rw [(h.addNamed hs).global?, h.global?, namespaces_addNamed h hs]
  exact Bindings.get?_insert _ _ _ _

theorem Bare.addAll (h : w.Bare) (hs : ∀ f ∈ fs, splitSymbol f.name = (none, f.name)) :
    (fs.foldl World.addNamed w).Bare := by
  induction fs generalizing w with
  | nil => exact h
  | cons g fs ih =>
    exact ih (h.addNamed (hs g List.mem_cons_self)) fun f hf => hs f (List.mem_cons_of_mem _ hf)

theorem global?_addAll_of_not_mem (h : w.Bare) (hs : ∀ f ∈ fs, splitSymbol f.name = (none, f.name))
    (hn : name ∉ fs.map Callable.name) :
    (fs.foldl World.addNamed w).namespaces.global? name = w.namespaces.global? name := by
  induction fs generalizing w with
  | nil => rfl
  | cons g fs ih =>
    simp only [List.map_cons, List.mem_cons, not_or] at hn
    have hg := hs g List.mem_cons_self
    refine (ih (h.addNamed hg) (fun f hf => hs f (List.mem_cons_of_mem _ hf)) hn.2).trans ?_
    rw [global?_addNamed h hg, if_neg (Ne.symm hn.1)]

theorem global?_addAll (h : w.Bare) (hs : ∀ f ∈ fs, splitSymbol f.name = (none, f.name))
    (hn : (fs.map Callable.name).Nodup) (hf : f ∈ fs) :
    ∃ i, (fs.foldl World.addNamed w).namespaces.global? f.name = some (.callable i f) := by
  induction fs generalizing w with
  | nil => cases hf
  | cons g fs ih =>
    obtain ⟨hg, hn⟩ := List.nodup_cons.mp hn
    have hgs := hs g List.mem_cons_self
    have hfs := fun f hf => hs f (List.mem_cons_of_mem g hf)
    rcases List.mem_cons.mp hf with rfl | hf
    · refine ⟨w.nextIdentity, (global?_addAll_of_not_mem (h.addNamed hgs) hfs hg).trans ?_⟩
      rw [global?_addNamed h hgs, if_pos rfl]
    · exact ih (h.addNamed hgs) hfs hn hf

theorem means_of_global? {i : Nat} (hs : splitSymbol name = (none, name)) (hl : w.local? name = none)
    (hg : w.namespaces.global? name = some (.callable i f)) : w.Means name f := by
  refine ⟨i, ?_⟩
  simp only [resolve, hs, hl, hg, Option.none_or]

end World

theorem Kernel.makeFunction_apply {w : World} (hw : w.frames = [[]]) {parameters : List Value} {arity : Arity}
    (ha : Closure.arityOf parameters = .ok arity) (form name : String) (body : List Value) :
    makeFunction form name false (.ofForms (.vector parameters :: body)) w =
      .value (.callable w.nextIdentity (.closure ⟨name, arity, parameters, body, .empty, false⟩))
        (w.addCallable (.closure ⟨name, arity, parameters, body, .empty, false⟩)).2 := by
  have hmake : Closure.make name false parameters body w =
      .value ⟨name, arity, parameters, body, .empty, false⟩ w := by
    simp only [Closure.make, ha, Eval.ofExcept]
    change Outcome.value (⟨name, arity, parameters, body, Closure.captureForms w.local? .empty body, false⟩ :
      Closure Value) w = _
    rw [Closure.captureForms_of_none (World.local?_of_frames_eq hw)]
  exact Eval.bind_of_value hmake

namespace Prelude

theorem eval_definition {w : World} {form : Form} {c : Closure Value} (hc : definition? form = some c)
    (hw : w.Bare) (hd : w.Means "defn" (.special .functionDefinition)) (n : Nat) :
    ∃ v, (Kernel.withFuel (n + 2)).eval form.toValue w = .value v (w.addNamed (.closure c)) := by
  obtain ⟨i, hi⟩ := hd
  unfold definition? at hc
  split at hc
  · next name parameters body =>
    split at hc
    · next arity ha =>
      cases hc
      refine ⟨.symbol name, (Kernel.eval_list_of_head (Kernel.eval_symbol_of_resolve hi n)).trans ?_⟩
      exact Eval.bind_of_value (Kernel.makeFunction_apply hw.frames ha "defn" name _)
    · cases hc
  · next name text parameters body =>
    split at hc
    · next arity ha =>
      cases hc
      refine ⟨.symbol name, (Kernel.eval_list_of_head (Kernel.eval_symbol_of_resolve hi n)).trans ?_⟩
      exact Eval.bind_of_value (Kernel.makeFunction_apply hw.frames ha "defn" name _)
    · cases hc
  · cases hc

theorem runForms_definitions {w : World} {i : Nat} (hw : w.Bare)
    (hd : w.namespaces.global? "defn" = some (.callable i (.special .functionDefinition))) (n : Nat)
    (last : Value) {fs : List Form} {cs : List (Closure Value)}
    (hc : List.Forall₂ (fun f c => definition? f = some c) fs cs)
    (hs : ∀ c ∈ cs, splitSymbol c.name = (none, c.name) ∧ c.name ≠ "defn") :
    ∃ v, (Kernel.withFuel (n + 2)).runForms last fs w =
      .value v ((cs.map .closure).foldl World.addNamed w) := by
  induction hc generalizing w last with
  | nil => exact ⟨last, rfl⟩
  | @cons f c fs cs hf _ ih =>
    obtain ⟨hsplit, hne⟩ := hs c List.mem_cons_self
    obtain ⟨v, hv⟩ := eval_definition hf hw
      (World.means_of_global? (by decide +kernel) (World.local?_of_frames_eq hw.frames _) hd) n
    have hnext : (w.addNamed (.closure c)).namespaces.global? "defn" =
        some (.callable i (.special .functionDefinition)) := by
      rw [World.global?_addNamed (f := .closure c) hw hsplit]
      exact (if_neg hne).trans hd
    obtain ⟨x, hx⟩ := ih (hw.addNamed (f := .closure c) hsplit) hnext v fun c hc =>
      hs c (List.mem_cons_of_mem _ hc)
    exact ⟨x, (Eval.bind_of_value hv).trans hx⟩

theorem forall₂_definition? : List.Forall₂ (fun f c => definition? f = some c) forms closures :=
  .cons rfl (.cons rfl (.cons rfl (.cons rfl (.cons rfl (.cons rfl .nil)))))

end Prelude

namespace World

theorem after_of_value {α : Type} {m : Eval α} {w u : World} {a : α} (h : m w = .value a u) :
    w.after m = u := by
  rw [after, h]

theorem after_install {l : Library} {w : World} (h : l = .prelude → w.Bare ∧
    ∃ i, w.namespaces.global? "defn" = some (.callable i (.special .functionDefinition))) :
    w.after l.install = l.callables.foldl addNamed w := by
  cases l with
  | core =>
    refine after_of_value (a := ()) ((Eval.bind_of_value (Library.installAll_apply _ w)).trans ?_)
    rw [Library.installAll_apply, Library.callables, List.foldl_append]
  | math => exact after_of_value (Library.installAll_apply _ w)
  | outside => exact after_of_value (Library.installAll_apply _ w)
  | prelude =>
    obtain ⟨hw, i, hd⟩ := h rfl
    have hs : ∀ c ∈ Prelude.closures, splitSymbol c.name = (none, c.name) ∧ c.name ≠ "defn" := by
      decide +kernel
    obtain ⟨v, hv⟩ := Prelude.runForms_definitions hw hd (budget - 2) .nil Prelude.forall₂_definition? hs
    exact after_of_value (a := ()) (Eval.bind_of_value hv)

theorem install_of_not_mem {libraries : List Library} (h : .prelude ∉ libraries) (w : World) :
    w.install libraries = (libraries.flatMap Library.callables).foldl addNamed w := by
  induction libraries generalizing w with
  | nil => rfl
  | cons l libraries ih =>
    simp only [List.mem_cons, not_or] at h
    have hl : w.after l.install = l.callables.foldl addNamed w := after_install fun he => absurd he.symm h.1
    rw [List.flatMap_cons, List.foldl_append, ← hl]
    exact ih h.2 (w.after l.install)

theorem install_append (w : World) (libraries later : List Library) :
    w.install (libraries ++ later) = (w.install libraries).install later := by
  simp only [install, List.foldl_append]

theorem install_singleton (w : World) (l : Library) : w.install [l] = w.after l.install := rfl

theorem standard_eq : World.standard = Library.standardCallables.foldl addNamed World.empty := by
  have hall : Library.standardCallables =
      [Library.core, .math, .outside].flatMap Library.callables ++ Library.prelude.callables := by
    simp only [Library.standardCallables, Library.standard, List.flatMap_cons, List.flatMap_nil,
      List.append_assoc, List.append_nil]
  have hlibraries : Library.standard = [.core, .math, .outside] ++ [.prelude] := rfl
  have hsplit := Library.splitSymbol_name
  have hnodup := Library.nodup_names
  have hdefn : Callable.special .functionDefinition ∈ [Library.core, .math, .outside].flatMap Library.callables :=
    List.mem_flatMap.mpr ⟨.core, List.mem_cons_self,
      List.mem_append_left _ (List.mem_map_of_mem (SpecialForm.mem_all _))⟩
  have hbefore : World.empty.install [.core, .math, .outside] = _ := install_of_not_mem (by decide) World.empty
  rw [hall, List.map_append] at hnodup
  rw [hall] at hsplit
  generalize [Library.core, .math, .outside].flatMap Library.callables = before at *
  have hbare : World.empty.Bare := ⟨rfl, rfl⟩
  have hbefores : ∀ f ∈ before, splitSymbol f.name = (none, f.name) := by
    intro f hf
    exact hsplit f (List.mem_append_left _ hf)
  have hlast := after_install (l := .prelude) (w := before.foldl addNamed World.empty) fun _ =>
    ⟨hbare.addAll hbefores, global?_addAll hbare hbefores (List.nodup_append.mp hnodup).1 hdefn⟩
  rw [hall, List.foldl_append, ← hlast, ← hbefore]
  rw [World.standard, hlibraries, install_append, install_singleton]

theorem bare_standard : World.standard.Bare := by
  rw [standard_eq]
  exact Bare.addAll ⟨rfl, rfl⟩ Library.splitSymbol_name

theorem global?_standard {f : Callable Value} (hf : f ∈ Library.standardCallables) :
    ∃ i, World.standard.namespaces.global? f.name = some (.callable i f) := by
  rw [standard_eq]
  exact global?_addAll ⟨rfl, rfl⟩ Library.splitSymbol_name Library.nodup_names hf

/-- The names mean what they mean in the standard world. -/
def Knows (w : World) (names : List String) : Prop :=
  ∀ name ∈ names, w.namespaces.global? name = World.standard.namespaces.global? name

theorem knows_standard (names : List String) : World.standard.Knows names := fun _ _ => rfl

theorem localIn?_eq_none {frame : Frame} {name : String}
    (h : name ∉ frame.flatMap (·.entries.map Prod.fst)) : localIn? frame name = none := by
  have hlookup (entries : List (String × Value)) (hn : name ∉ entries.map Prod.fst) :
      Bindings.lookup entries name = none := by
    induction entries with
    | nil => rfl
    | cons e entries ih =>
      simp only [List.map_cons, List.mem_cons, not_or] at hn
      rw [Bindings.lookup, if_neg (Ne.symm hn.1), ih hn.2]
  induction frame with
  | nil => rfl
  | cons scope frame ih =>
    simp only [List.flatMap_cons, List.mem_append, not_or] at h
    rw [localIn?, Bindings.get?, hlookup _ h.1, ih h.2]
    rfl

/-- The names mean what they mean in the standard world, and no local binding hides them. -/
structure Sees (w : World) (names : List String) : Prop where
  knows : w.Knows names
  unhidden : ∀ name ∈ names, w.local? name = none

namespace Sees

variable {w : World} {names : List String}

theorem of_frames (bound : List String) {frame : Frame} {fs : List Frame} (hk : w.Knows names)
    (hw : w.frames = frame :: fs) (hb : frame.flatMap (·.entries.map Prod.fst) = bound)
    (hd : ∀ name ∈ names, name ∉ bound) : w.Sees names :=
  ⟨hk, fun name hn => (local?_of_frames_eq hw name).trans (localIn?_eq_none (hb ▸ hd name hn))⟩

theorem means {f : Callable Value} (h : w.Sees names) (hf : f ∈ Library.standardCallables)
    (hn : f.name ∈ names) : w.Means f.name f := by
  obtain ⟨i, hi⟩ := global?_standard hf
  exact means_of_global? (Library.splitSymbol_name f hf) (h.unhidden f.name hn) ((h.knows f.name hn).trans hi)

theorem special (h : w.Sees names) (s : SpecialForm) (hn : s.name ∈ names) : w.Means s.name (.special s) := by
  refine h.means (f := .special s) ?_ hn
  refine List.mem_flatMap.mpr ⟨.core, List.mem_cons_self, ?_⟩
  exact List.mem_append_left _ (List.mem_map_of_mem (SpecialForm.mem_all s))

theorem primitive (h : w.Sees names) (p : Primitive) (hn : p.name ∈ names) :
    w.Means p.name (.primitive p) := by
  refine h.means (f := .primitive p) ?_ hn
  have hmem : p ∈ Primitive.core ∨ p ∈ Primitive.math ∨ p ∈ Primitive.outside := by
    cases p <;> decide
  rcases hmem with hp | hp | hp
  · refine List.mem_flatMap.mpr ⟨.core, List.mem_cons_self, ?_⟩
    exact List.mem_append_right _ (List.mem_map_of_mem hp)
  · exact List.mem_flatMap.mpr ⟨.math, by simp [Library.standard], List.mem_map_of_mem hp⟩
  · exact List.mem_flatMap.mpr ⟨.outside, by simp [Library.standard], List.mem_map_of_mem hp⟩

theorem closure (h : w.Sees names) {form : Form} (hf : form ∈ Prelude.forms) {c : Closure Value}
    (hc : Prelude.definition? form = some c) (hn : c.name ∈ names) : w.Means c.name (.closure c) :=
  h.means (f := .closure c) (Library.closure_mem_standard hf hc) hn

end Sees

theorem sees_standard (names : List String) : World.standard.Sees names :=
  .of_frames [] (knows_standard names) bare_standard.frames rfl fun _ _ => List.not_mem_nil

theorem resolve_of_frames {w : World} {frame : Frame} {fs : List Frame} {name : String} {v : Value}
    (hf : w.frames = frame :: fs) (hs : splitSymbol name = (none, name)) (h : localIn? frame name = some v) :
    w.resolve name = .ok v := by
  simp only [resolve, hs, local?_of_frames_eq hf, h, Option.some_or]

end World

def CallsNamed (w : World) (name : String) (args : List Value) (r : Outcome Value) : Prop :=
  ∃ i f, w.namespaces.global? name = some (.callable i f) ∧ Calls w f args r

theorem CallsNamed.unique {w : World} {name : String} {args : List Value} {r r' : Outcome Value}
    (h : CallsNamed w name args r) (h' : CallsNamed w name args r') : r = r' := by
  obtain ⟨i, f, hf, hr⟩ := h
  obtain ⟨i', f', hf', hr'⟩ := h'
  cases hf.symm.trans hf'
  exact hr.unique hr'

theorem World.Knows.callsNamed {w : World} {names : List String} (hk : w.Knows names) {form : Form}
    (hf : form ∈ Prelude.forms) {c : Closure Value} (hc : Prelude.definition? form = some c) (hn : c.name ∈ names)
    {args : List Value} {r : Outcome Value} (h : Calls w (.closure c) args r) : CallsNamed w c.name args r := by
  obtain ⟨i, hi⟩ := World.global?_standard (Library.closure_mem_standard hf hc)
  exact ⟨i, .closure c, (hk c.name hn).trans hi, h⟩

theorem Evals.bound {w : World} {frame : Frame} {fs : List Frame} {name : String} {v : Value}
    (hf : w.frames = frame :: fs) (hs : splitSymbol name = (none, name)) (h : World.localIn? frame name = some v) :
    Evals w (.symbol name) (.value v w) :=
  .symbol (World.resolve_of_frames hf hs h)

end LazyLisp
