import LazyLisp.Proofs.Rules

namespace LazyLisp

def quoted (v : Value) : Value := .list [.symbol "quote", v]

/-- No argument is looked at as a form, only its value. -/
def Callable.takesValues {V : Type} : Callable V → Bool
  | special .conditional | special .guarded | special .sequence | special .requirement | special .equal
  | special .notEqual | special .conjunction | special .disjunction => true
  | f => f.isFunction

/-- Going through arguments, `quote` is the special form whenever the next is evaluated. `next` relates the
world in which an argument has its value to the world in which the one after it is evaluated. -/
def QuoteLasts (next : Value → World → World → Prop) : List Value → World → Prop
  | [], _ => True
  | v :: vs, w => w.Means "quote" (.special .quotation) ∧ ∀ u, next v w u → QuoteLasts next vs u

def ComparesTo (wanted : Bool) (first v : Value) (w u : World) : Prop :=
  Eventually (fun l => (Kernel.withFuel l).isEqual first v w) (.value wanted u)

def Loads (spec : Value) (w u : World) : Prop := Kernel.requireModule spec w = .value () u

/-- In the course of a call with quoted arguments `quote` stays the special form. Only comparisons and
requirements run code, or change a table of names, between two arguments. -/
def Callable.KeepsQuote : Callable Value → List Value → World → Prop
  | special .equal, first :: vs, w =>
    w.Means "quote" (.special .quotation) ∧ QuoteLasts (ComparesTo true first) vs w
  | special .notEqual, first :: vs, w =>
    w.Means "quote" (.special .quotation) ∧ QuoteLasts (ComparesTo false first) vs w
  | special .requirement, vs, w => QuoteLasts Loads vs w
  | _, _, w => w.Means "quote" (.special .quotation)

namespace Kernel

def Unquotes (k : Kernel) (w : World) : Prop := ∀ v, k.eval (quoted v) w = .value v w

theorem unquotes {w : World} (h : w.Means "quote" (.special .quotation)) (n : Nat) :
    (withFuel (n + 2)).Unquotes w := by
  intro v
  obtain ⟨i, hi⟩ := h
  have hhead : (withFuel (n + 1)).eval (.symbol "quote") w = .value (.callable i (.special .quotation)) w := by
    change Eval.ofExcept (w.resolve "quote") w = _
    rw [hi]
    rfl
  exact Eval.bind_of_value hhead

namespace Unquotes

variable {k : Kernel} {w : World} (h : k.Unquotes w)
include h

theorem evaluate_bind {α : Type} {items items' : List Value} {v : Value} {f g : Value → Eval α}
    (hfg : f v w = g v w) :
    (k.evaluate (.ofForms items) (quoted v) >>= f) w = (k.evaluate (.ofValues items') v >>= g) w := by
  have hform : k.evaluate (.ofForms items) (quoted v) w = .value v w := h v
  rw [Eval.bind_of_value hform]
  exact hfg

theorem values_quoted (vs : List Value) : k.values (.ofForms (vs.map quoted)) w = .value vs w := by
  induction vs with
  | nil => rfl
  | cons v vs ih =>
    have hrest : k.evalEach false (vs.map quoted) w = .value vs w := ih
    change (k.eval (quoted v) >>= fun x => k.evalEach false (vs.map quoted) >>= fun xs => pure (x :: xs)) w = _
    rw [Eval.bind_of_value (h v), Eval.bind_of_value hrest]
    rfl

theorem evalLast_quoted (last : Value) (vs : List Value) :
    k.evalLast false last (vs.map quoted) w = k.evalLast true last vs w := by
  induction vs generalizing last with
  | nil => rfl
  | cons v vs ih => exact h.evaluate_bind (ih v)

theorem evalRest_quoted (vs : List Value) :
    k.evalRest (.ofForms (vs.map quoted)) w = k.evalRest (.ofValues vs) w := h.evalLast_quoted .nil vs

theorem upTo_quoted {items items' : List Value} (stop : Value → Bool) (last : Value) (vs : List Value) :
    k.upTo (.ofForms items) stop last (vs.map quoted) w = k.upTo (.ofValues items') stop last vs w := by
  induction vs generalizing last with
  | nil => rfl
  | cons v vs ih =>
    refine h.evaluate_bind ?_
    cases stop v with
    | true => rfl
    | false => exact ih v

theorem requireValue_bind {α : Type} {name : String} {n : Nat} {vs : List Value} {f g : Value × Args → Eval α}
    (hfg : ∀ v rest, vs = v :: rest → f (v, .ofForms (rest.map quoted)) w = g (v, .ofValues rest) w) :
    (k.requireValue (.ofForms (vs.map quoted)) name n >>= f) w =
      (k.requireValue (.ofValues vs) name n >>= g) w := by
  cases vs with
  | nil => rfl
  | cons v rest =>
    have hform : k.requireValue (.ofForms ((v :: rest).map quoted)) name n w =
        .value (v, .ofForms (rest.map quoted)) w := Eval.bind_of_value (h v)
    rw [Eval.bind_of_value hform]
    exact hfg v rest rfl

theorem conditional_quoted (vs : List Value) :
    k.conditional (.ofForms (vs.map quoted)) w = k.conditional (.ofValues vs) w := by
  refine h.requireValue_bind fun test rest _ => ?_
  cases rest with
  | nil => rfl
  | cons yes rest =>
    simp only [List.map_cons, Args.require, Args.next?, Args.ofForms, Args.ofValues, pure_bind]
    cases test.truthy with
    | true => exact h yes
    | false =>
      cases rest with
      | nil => rfl
      | cons no rest => exact h no

theorem guarded_quoted (vs : List Value) :
    k.guarded (.ofForms (vs.map quoted)) w = k.guarded (.ofValues vs) w := by
  refine h.requireValue_bind fun test rest _ => ?_
  dsimp only
  cases test.truthy with
  | true => exact h.evalRest_quoted rest
  | false => rfl

end Unquotes

variable {w : World} {n : Nat} {vs : List Value}

theorem below_isEqual {m n : Nat} (h : m ≤ n) (a b : Value) :
    Below ((withFuel m).isEqual a b) ((withFuel n).isEqual a b) :=
  (earlier_follows_of_le h).rel_isEqual (i := ()) a b

theorem compareEach_quoted {items items' : List Value} {wanted : Bool} {first : Value}
    (h : QuoteLasts (ComparesTo wanted first) vs w) :
    (withFuel (n + 2)).compareEach (.ofForms items) wanted first (vs.map quoted) w =
      (withFuel (n + 2)).compareEach (.ofValues items') wanted first vs w := by
  induction vs generalizing w with
  | nil => rfl
  | cons v vs ih =>
    obtain ⟨hquote, hnext⟩ := h
    refine (unquotes hquote n).evaluate_bind ?_
    rw [Eval.bind_apply, Eval.bind_apply]
    cases hr : (withFuel (n + 2)).isEqual first v w with
    | value same u =>
      by_cases hs : same = wanted
      · subst hs
        have hu : ComparesTo same first v w u := Eventually.of_value (fun l l' hl => below_isEqual hl first v w) hr
        simpa using ih (hnext u hu)
      · simp only [if_neg hs]
    | failure e u => rfl
    | outOfFuel => rfl

theorem comparison_quoted {name : String} {wanted : Bool} {first : Value} (hw : w.Means "quote" (.special .quotation))
    (h : QuoteLasts (ComparesTo wanted first) vs w) :
    (withFuel (n + 2)).comparison name wanted (.ofForms ((first :: vs).map quoted)) w =
      (withFuel (n + 2)).comparison name wanted (.ofValues (first :: vs)) w := by
  refine (unquotes hw n).requireValue_bind fun v rest he => ?_
  cases he
  cases vs with
  | nil => rfl
  | cons second rest => exact compareEach_quoted h

theorem requireEach_quoted {items items' : List Value} (h : QuoteLasts Loads vs w) :
    (withFuel (n + 2)).requireEach (.ofForms items) (vs.map quoted) w =
      (withFuel (n + 2)).requireEach (.ofValues items') vs w := by
  induction vs generalizing w with
  | nil => rfl
  | cons v vs ih =>
    obtain ⟨hquote, hnext⟩ := h
    refine (unquotes hquote n).evaluate_bind ?_
    rw [Eval.bind_apply, Eval.bind_apply]
    cases hr : requireModule v w with
    | value a u => exact ih (hnext u hr)
    | failure e u => rfl
    | outOfFuel => rfl

theorem call_quoted {f : Callable Value} (hf : f.takesValues = true) (h : f.KeepsQuote vs w) :
    (withFuel (n + 2)).call f (.ofForms (vs.map quoted)) w = (withFuel (n + 2)).call f (.ofValues vs) w := by
  cases f with
  | special s =>
    cases s with
    | conditional => exact (unquotes h n).conditional_quoted vs
    | guarded => exact (unquotes h n).guarded_quoted vs
    | sequence => exact (unquotes h n).evalRest_quoted vs
    | conjunction => exact (unquotes h n).upTo_quoted _ _ vs
    | disjunction => exact (unquotes h n).upTo_quoted _ _ vs
    | requirement => exact requireEach_quoted h
    | equal =>
      cases vs with
      | nil => rfl
      | cons first vs => exact comparison_quoted h.1 h.2
    | notEqual =>
      cases vs with
      | nil => rfl
      | cons first vs => exact comparison_quoted h.1 h.2
    | _ => cases hf
  | primitive _ | closure _ | recorder _ _ =>
    rw [call_eq_bind rfl, Eval.bind_of_value ((unquotes h n).values_quoted vs)]
  | _ => cases hf

def withoutEval (k : Kernel) : Kernel := { k with eval := fun _ => .outOfFuel }

section

variable (k : Kernel)

theorem force_withoutEval (m : Nat) (v : Value) : k.withoutEval.force m v = k.force m v := by
  induction m generalizing v with
  | zero => cases v <;> rfl
  | succ m ih =>
    cases v with
    | lazy i =>
      simp only [force, ih]
      rfl
    | _ => rfl

theorem uncons_withoutEval (m : Nat) (v : Value) : k.withoutEval.uncons m v = k.uncons m v := by
  rw [uncons_eq_force, uncons_eq_force, force_withoutEval]

theorem equalElements_withoutEval (eq : Value → Value → Eval Bool) (m : Nat) (a b : Value) :
    k.withoutEval.equalElements eq m a b = k.equalElements eq m a b := by
  induction m generalizing a b with
  | zero => rfl
  | succ m ih =>
    simp only [equalElements, uncons_withoutEval, ih]
    rfl

theorem equal_withoutEval (m : Nat) (a b : Value) : k.withoutEval.equal m a b = k.equal m a b := by
  induction m generalizing a b with
  | zero => rfl
  | succ m ih =>
    have heq : k.withoutEval.equal m = k.equal m := by
      funext a b
      exact ih a b
    simp only [equal, equalElements_withoutEval, heq]
    rfl

theorem compareEach_withoutEval (wanted : Bool) (first : Value) (items vs : List Value) :
    k.withoutEval.compareEach (.ofValues items) wanted first vs = k.compareEach (.ofValues items) wanted first vs := by
  have hsame (v : Value) : k.withoutEval.isEqual first v = k.isEqual first v := k.equal_withoutEval k.fuel first v
  induction vs with
  | nil => rfl
  | cons v vs ih =>
    simp only [compareEach, hsame, ih]
    rfl

theorem requireEach_withoutEval (items vs : List Value) :
    k.withoutEval.requireEach (.ofValues items) vs = k.requireEach (.ofValues items) vs := by
  induction vs with
  | nil => rfl
  | cons v vs ih =>
    simp only [requireEach, ih]
    rfl

theorem upTo_withoutEval (stop : Value → Bool) (last : Value) (items vs : List Value) :
    k.withoutEval.upTo (.ofValues items) stop last vs = k.upTo (.ofValues items) stop last vs := by
  induction vs generalizing last with
  | nil => rfl
  | cons v vs ih =>
    simp only [upTo, ih]
    rfl

theorem evalLast_withoutEval (last : Value) (vs : List Value) :
    k.withoutEval.evalLast true last vs = k.evalLast true last vs := by
  induction vs generalizing last with
  | nil => rfl
  | cons v vs ih =>
    simp only [evalLast, ih]
    rfl

theorem comparison_withoutEval (name : String) (wanted : Bool) (vs : List Value) :
    k.withoutEval.comparison name wanted (.ofValues vs) = k.comparison name wanted (.ofValues vs) := by
  cases vs with
  | nil => rfl
  | cons first vs =>
    cases vs with
    | nil => rfl
    | cons second vs => exact k.compareEach_withoutEval wanted first (second :: vs) (second :: vs)

theorem guarded_withoutEval (vs : List Value) :
    k.withoutEval.guarded (.ofValues vs) = k.guarded (.ofValues vs) := by
  cases vs with
  | nil => rfl
  | cons test vs =>
    have hrest : k.withoutEval.evalRest (.ofValues vs) = k.evalRest (.ofValues vs) := k.evalLast_withoutEval .nil vs
    change (if test.truthy then k.withoutEval.evalRest (.ofValues vs) else pure .nil) =
      (if test.truthy then k.evalRest (.ofValues vs) else pure .nil)
    rw [hrest]

theorem call_withoutEval {f : Callable Value} (hf : f.takesValues = true) (hs : f.isFunction = false)
    (vs : List Value) : k.withoutEval.call f (.ofValues vs) = k.call f (.ofValues vs) := by
  cases f with
  | special s =>
    cases s with
    | conditional =>
      match vs with
      | [] | [_] | [_, _] | _ :: _ :: _ :: _ => rfl
    | guarded => exact k.guarded_withoutEval vs
    | sequence => exact k.evalLast_withoutEval .nil vs
    | conjunction => exact k.upTo_withoutEval _ _ vs vs
    | disjunction => exact k.upTo_withoutEval _ _ vs vs
    | requirement => exact k.requireEach_withoutEval vs vs
    | equal => exact k.comparison_withoutEval _ _ vs
    | notEqual => exact k.comparison_withoutEval _ _ vs
    | _ => cases hf
  | primitive _ | closure _ | recorder _ _ => cases hs
  | _ => cases hf

end

end Kernel

def quotingWorld : World :=
  { World.empty with
    namespaces := (Namespaces.empty.define "quote" (.callable 0 (.special .quotation))).define "="
      (.callable 1 (.special .equal))
    nextIdentity := 2 }

def symbolsAsData : List Value := [.symbol "x", .symbol "x", .list [.symbol "x"]]

end LazyLisp
