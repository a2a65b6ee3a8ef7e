import LazyLisp.Proofs.Globals
import LazyLisp.Proofs.Parameters
import LazyLisp.Proofs.Realization
import LazyLisp.Proofs.Scoping

namespace LazyLisp

theorem Eventually.within {α σ : Type} {save : World → σ} {enter : World → World}
    {leave : σ → World → World} {m : Nat → Eval α} {w u : World} {a : α}
    (h : Eventually (fun l => m l (enter w)) (.value a u)) :
    Eventually (fun l => Eval.within save enter leave (m l) w) (.value a (leave (save w) u)) := by
  obtain ⟨-, n, hn⟩ := h
  refine .of_forall (n := n) fun l hl => ?_
  have hl : m l (enter w) = .value a u := hn l hl
  simp only [Eval.within, hl]

def Evals (w : World) (form : Value) (r : Outcome Value) : Prop :=
  Eventually (fun l => (Kernel.withFuel l).eval form w) r

theorem evals_iff {w : World} {form : Value} {r : Outcome Value} :
    Evals w form r ↔ Eventually (fun l => (Kernel.withFuel l).evalForm form w) r :=
  Eventually.shift_iff.symm

inductive EvalsEach : World → List Value → List Value → World → Prop
  | nil (w : World) : EvalsEach w [] [] w
  | cons {w u w' : World} {form v : Value} {forms vs : List Value} : Evals w form (.value v u) →
      EvalsEach u forms vs w' → EvalsEach w (form :: forms) (v :: vs) w'

theorem EvalsEach.eventually {w u : World} {forms vs : List Value} (h : EvalsEach w forms vs u) :
    Eventually (fun l => (Kernel.withFuel l).values (.ofForms forms) w) (.value vs u) := by
  induction h with
  | nil w => exact .pure [] w
  | cons hv _ ih => exact (Eventually.bind_iff hv).mpr ((Eventually.bind_iff ih).mpr (.pure _ _))

/-- Its arguments are evaluated before it is called. -/
def Callable.isFunction {V : Type} : Callable V → Bool
  | primitive _ | closure _ | recorder _ _ => true
  | _ => false

theorem Kernel.call_eq_bind {f : Callable Value} (hf : f.isFunction = true) (k : Kernel) (a : Args) :
    k.call f a = k.values a >>= fun vs => k.call f (.ofValues vs) := by
  cases f with
  | primitive p => simp only [call, callPrimitive, values_ofValues, pure_bind]
  | closure c => simp only [call, callClosure, values_ofValues, pure_bind]
  | recorder log result => simp only [call, values_ofValues, pure_bind]
  | _ => cases hf

theorem Kernel.evalRest_ofForms_singleton (k : Kernel) (form : Value) : k.evalRest (.ofForms [form]) = k.eval form :=
  bind_pure (k.eval form)

theorem Kernel.call_binding {bs : List Value} (hbs : bs.length % 2 = 0) (k : Kernel) (body : List Value) :
    k.call (.special .binding) (.ofForms (.vector bs :: body)) =
      Eval.withScope (k.bindInTurn (.ofForms body) bs >>= fun _ => k.evalRest (.ofForms body)) := by
  simp only [call, callSpecial, localBinding, Args.require, Args.next?, Args.ofForms, pure_bind, if_pos hbs]

theorem calls_iff {w : World} {f : Callable Value} {args : List Value} {r : Outcome Value} :
    Calls w f args r ↔ Eventually (fun l => (Kernel.withFuel l).call f (.ofValues args) w) r :=
  Eventually.shift_iff.symm

def World.Means (w : World) (name : String) (f : Callable Value) : Prop :=
  ∃ i, w.resolve name = .ok (.callable i f)

namespace Evals

variable {w u : World} {r : Outcome Value} {name : String} {v form : Value} {args : List Value}

theorem symbol (h : w.resolve name = .ok v) : Evals w (.symbol name) (.value v w) := by
  refine evals_iff.mpr (.of_forall (n := 0) fun l _ => ?_)
  change Eval.ofExcept (w.resolve name) w = _
  rw [h]
  rfl

theorem self (h : ∀ k : Kernel, k.evalForm v = pure v) (w : World) : Evals w v (.value v w) := by
  refine evals_iff.mpr (.of_forall (n := 0) fun l _ => ?_)
  rw [h]
  rfl

theorem call_of_head {head : Value} {i : Nat} {f : Callable Value} (h : Evals w head (.value (.callable i f) u)) :
    Evals w (.list (head :: args)) r ↔ Eventually (fun l => (Kernel.withFuel l).call f (.ofForms args) u) r :=
  (evals_iff.trans (Eventually.bind_iff h)).trans Eventually.shift_iff.symm

theorem call_iff {f : Callable Value} (h : w.Means name f) :
    Evals w (.list (.symbol name :: args)) r ↔
      Eventually (fun l => (Kernel.withFuel l).call f (.ofForms args) w) r := by
  obtain ⟨i, hi⟩ := h
  exact call_of_head (symbol hi)

theorem function {f : Callable Value} {vs : List Value} (h : w.Means name f)
    (ha : EvalsEach w args vs u) (hf : f.isFunction = true) (hc : Calls u f vs r) :
    Evals w (.list (.symbol name :: args)) r := by
  rw [call_iff h]
  simp only [Kernel.call_eq_bind hf _ (.ofForms args)]
  exact (Eventually.bind_iff ha.eventually).mpr (calls_iff.mp hc)

theorem last (h : Evals w form r) :
    Eventually (fun l => (Kernel.withFuel l).evalRest (.ofForms [form]) w) r := by
  simp only [Kernel.evalRest_ofForms_singleton]
  exact h

section

variable {test t : Value}

theorem requireValue (h : Evals w test (.value t u)) (name : String) (n : Nat) :
    Eventually (fun l => (Kernel.withFuel l).requireValue (.ofForms (test :: args)) name n w)
      (.value (t, .ofForms args) u) :=
  (Eventually.bind_iff h).mpr (.pure _ u)

theorem guarded (h : w.Means "when" (.special .guarded)) (ht : Evals w test (.value t u))
    (hform : if t.truthy then Evals u form r else r = .value .nil u) :
    Evals w (.list [.symbol "when", test, form]) r := by
  refine (call_iff h).mpr ((Eventually.bind_iff (ht.requireValue "when" 0)).mpr ?_)
  cases htruthy : t.truthy with
  | true =>
    simp only [htruthy, if_true] at hform ⊢
    exact hform.last
  | false =>
    simp only [htruthy, Bool.false_eq_true, if_false] at hform ⊢
    cases hform
    exact .pure Value.nil u

theorem conditional (yes no : Value) (h : w.Means "if" (.special .conditional)) (ht : Evals w test (.value t u))
    (hform : Evals u (if t.truthy then yes else no) r) :
    Evals w (.list [.symbol "if", test, yes, no]) r := by
  refine (call_iff h).mpr ((Eventually.bind_iff (ht.requireValue "if" 0)).mpr ?_)
  have hyes : Eventually (fun _ => (Args.ofForms [yes, no]).require "if" 1 u) (.value (yes, .ofForms [no]) u) :=
    .pure _ u
  refine (Eventually.bind_iff hyes).mpr ?_
  cases htruthy : t.truthy with
  | true =>
    simp only [htruthy, if_true] at hform ⊢
    exact hform
  | false =>
    simp only [htruthy, Bool.false_eq_true, if_false] at hform ⊢
    exact hform

theorem disjunction (h : w.Means "or" (.special .disjunction)) (ht : Evals w test (.value t u))
    (hform : if t.truthy then r = .value t u else Evals u form r) :
    Evals w (.list [.symbol "or", test, form]) r := by
  refine (call_iff h).mpr ((Eventually.bind_iff ht).mpr ?_)
  cases htruthy : t.truthy with
  | true =>
    simp only [htruthy, if_true] at hform ⊢
    cases hform
    exact .pure t u
  | false =>
    simp only [htruthy, Bool.false_eq_true, if_false, Kernel.upTo, ite_self, bind_pure] at hform ⊢
    exact hform

end

theorem binding {u' u'' : World} {pattern value x : Value} (h : w.Means "let" (.special .binding))
    (hv : Evals w.pushScope value (.value v u))
    (hp : Eventually (fun l => (Kernel.withFuel l).destructure pattern v u) (.value () u'))
    (hform : Evals u' form (.value x u'')) :
    Evals w (.list [.symbol "let", .vector [pattern, value], form]) (.value x u''.popScope) := by
  have hturn : Eventually (fun l => (Kernel.withFuel l).bindInTurn (.ofForms [form]) [pattern, value] w.pushScope)
      (.value () u') :=
    (Eventually.bind_iff hv).mpr ((Eventually.bind_iff hp).mpr (.pure () u'))
  have heven : [pattern, value].length % 2 = 0 := by simp
  rw [call_iff h]
  simp only [Kernel.call_binding heven]
  exact .within ((Eventually.bind_iff hturn).mpr hform.last)

def delayedBodyIn (w : World) (forms : List Value) : Callable Value :=
  .closure ⟨"lazy-seq", .exactly 0, [], forms, Closure.captureForms w.local? .empty forms, false⟩

theorem delay (args : List Value) (h : w.Means "lazy-seq" (.special .delay)) :
    Evals w (.list (.symbol "lazy-seq" :: args))
      (.value (.lazy w.cells.size) (w.addCell (delayedBodyIn w args)).2) := by
  refine (call_iff h).mpr (.of_forall (n := 0) fun l _ => rfl)

end Evals

theorem calls_closure {w u : World} {c : Closure Value} {form v : Value} (args : List Value) (sl : List Slot)
    (hself : c.bindsSelf = false) (hn : c.arity.accepts args.length = true)
    (hp : ∀ p ∈ c.parameters, p.isParameter = true) (hs : slots c.parameters = some sl)
    (hbody : c.body = [form])
    (h : Evals (w.pushFrame (c.captured.insertAll (Slot.bindings args args sl))) form (.value v u)) :
    Calls w (.closure c) args (.value v u.popFrame) := by
  have hscope : Kernel.callScope c = pure c.captured := by
    rw [Kernel.callScope, if_neg (by rw [hself]; exact Bool.false_ne_true)]
  have hcall (k : Kernel) : k.call (.closure c) (.ofValues args) =
      Eval.withFrame c.captured (k.callBody c args) := by
    simp only [Kernel.call, Kernel.callClosure, Kernel.values_ofValues, pure_bind, Eval.requireArity, if_pos hn,
      hscope]
    rfl
  have hbind := Slot.eventually_destructure hp hs args w [] w.frames c.captured
  rw [calls_iff]
  simp only [hcall]
  refine .within ((Eventually.bind_iff hbind).mpr ?_)
  rw [hbody]
  exact h.last

theorem calls_cons_lazy (w : World) (x : Value) (i : Nat) :
    Calls w (.primitive .cons) [x, .lazy i] (.value (.cons x (.lazy i)) w) :=
  (calls_primitive_iff rfl).mpr (.pure _ w)

theorem Forces.passes {w u : World} {v s : Value} (h : Forces w v (.value s u)) : w.Passes u := by
  obtain ⟨n, hn⟩ := h.exists_fuel
  have hf : (Kernel.withFuel n).force n v w = .value s u := hn n (Nat.le_refl n)
  exact (evolution_passes.follows n).rel_force (i := ()) (.inl rfl) v w u (by rw [hf]; rfl)

theorem Calls.frames_eq {w u : World} {f : Callable Value} {args : List Value} {v : Value}
    (h : Calls w f args (.value v u)) (hw : w.frames ≠ []) : u.frames = w.frames := by
  obtain ⟨-, n, hn⟩ := h
  have hf : (Kernel.withFuel n).apply f args w = .value v u := hn n (Nat.le_refl n)
  have hp := Kernel.corresponds_apply n f args w.frames w.frames (fun _ _ => rfl) w w.frames ⟨.inl rfl, .inl rfl⟩
  rw [hf] at hp
  obtain ⟨fs, hk, -⟩ := hp.left_value
  exact hk.eq_of_ne_nil hw

namespace World

def inBody (w : World) (i : Nat) (kept : Scope) : World :=
  { w.setCell i .running with frames := [[kept], []] }

variable {w u : World} {i : Nat} {body : Callable Value} {s : Value}

-- The cell is running as long as its body is, so no cell that has its elements is touched after it.
theorem course_leaveBody (hc : w.cells[i]? = some ⟨w.era, .unrealized body⟩)
    (hp : (w.setCell i .running).Passes u) (hs : s.isSequential = true) :
    ∃ es, Course u es (w.leaveBody i u s) := by
  obtain ⟨hi, -⟩ := hp.begun hc
  exact ⟨_, (Course.elsewhere (w := { u with frames := w.frames }) (.start u) rfl).complete hi hs⟩

theorem getElem?_leaveBody_addCell (hc : w.cells[i]? = some ⟨w.era, .unrealized body⟩)
    (hp : (w.setCell i .running).Passes u) (other : Callable Value) (s : Value) :
    (w.leaveBody i (u.addCell other).2 s).cells[u.cells.size]? = some ⟨u.era, .unrealized other⟩ := by
  obtain ⟨hi, -⟩ := hp.begun hc
  have hlt : i < u.cells.size := by
    by_contra hge
    rw [Array.getElem?_eq_none (Nat.not_lt.mp hge)] at hi
    cases hi
  refine (getElem?_setCell_of_ne _ (Nat.ne_of_lt hlt) _).trans ?_
  refine (getElem?_addCell u other u.cells.size).trans (if_pos rfl)

end World

def lazyBody (kept : Scope) (form : Value) : Callable Value :=
  .closure ⟨"lazy-seq", .exactly 0, [], [form], kept, false⟩

theorem Realizes.of_evals {w u : World} {i : Nat} {kept : Scope} {form v s : Value}
    (hc : w.cells[i]? = some ⟨w.era, .unrealized (lazyBody kept form)⟩)
    (h : Evals (w.inBody i kept) form (.value v u)) (hs : v.asSequence? = some s) :
    Realizes w i (.value s (w.leaveBody i u s)) := by
  have hcall : Calls { w.setCell i .running with frames := [[]] } (lazyBody kept form) [] (.value v u.popFrame) :=
    calls_closure [] [] rfl rfl (by simp) rfl rfl h
  exact .of_calls_value (u := u.popFrame) hc hcall hs

end LazyLisp
