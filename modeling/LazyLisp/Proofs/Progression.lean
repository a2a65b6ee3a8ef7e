import LazyLisp.Proofs.Source.Literals
import LazyLisp.Proofs.Standard

namespace LazyLisp

open Source (InWord)

/-- `x` comes before `stop` for one who goes on by `step`. -/
def Before (step x stop : Int) : Prop := if 0 < step then x < stop else stop < x

instance (step x stop : Int) : Decidable (Before step x stop) :=
  inferInstanceAs (Decidable (if 0 < step then x < stop else stop < x))

def termCount (start stop step : Int) : Nat :=
  if 0 < step then ((stop - start + step - 1) / step).toNat else ((start - stop - step - 1) / -step).toNat

def terms (start step : Int) (n : Nat) : List Int := (List.range n).map fun k : Nat => start + k * step

def progression (start stop step : Int) : List Int := terms start step (termCount start stop step)

theorem lt_termCount_iff {step : Int} (hs : step ≠ 0) (start stop : Int) (k : Nat) :
    k < termCount start stop step ↔ Before step (start + k * step) stop := by
  have hk (q : Int) : k < q.toNat ↔ (k : Int) + 1 ≤ q := by omega
  unfold termCount Before
  by_cases h : 0 < step
  · rw [if_pos h, if_pos h, hk, Int.le_ediv_iff_mul_le h, Int.add_mul]
    omega
  · rw [if_neg h, if_neg h, hk, Int.le_ediv_iff_mul_le (by omega), Int.add_mul, Int.mul_neg]
    omega

theorem getElem?_progression {step : Int} (hs : step ≠ 0) (start stop : Int) (k : Nat) :
    (progression start stop step)[k]? =
      if Before step (start + k * step) stop then some (start + k * step) else none := by
  by_cases hk : k < termCount start stop step
  · rw [if_pos ((lt_termCount_iff hs start stop k).mp hk)]
    simp [progression, terms, hk]
  · rw [if_neg (mt (lt_termCount_iff hs start stop k).mpr hk)]
    simp [progression, terms, Nat.not_lt.mp hk]

example : progression 10 4 (-3) = [10, 7] := by decide

theorem add_succ_mul (start step : Int) (k : Nat) :
    start + (k + 1 : Nat) * step = start + step + k * step := by
  rw [Int.natCast_add, Int.add_mul]
  omega

theorem terms_succ (start step : Int) (n : Nat) :
    terms start step (n + 1) = start :: terms (start + step) step n := by
  simp only [terms, List.range_succ_eq_map, List.map_cons, List.map_map, Function.comp_def, Nat.succ_eq_add_one,
    add_succ_mul]
  simp

def stepForm : Value :=
  callForm "when" [
    callForm "or" [callForm "nil?" [.symbol "end"],
      callForm "if" [callForm "<" [.int 0, .symbol "step"],
        callForm "<" [.symbol "start", .symbol "end"],
        callForm ">" [.symbol "start", .symbol "end"]]],
    callForm "cons" [.symbol "start",
      callForm "step-range" [callForm "+" [.symbol "start", .symbol "step"], .symbol "end", .symbol "step"]]]

def stepFunction : Closure Value :=
  ⟨"step-range", .exactly 3, [.symbol "start", .symbol "end", .symbol "step"], [callForm "lazy-seq" [stepForm]],
    .empty, false⟩

theorem definition?_stepRange : Prelude.definition? Prelude.stepRange = some stepFunction := rfl

def choiceForm : Value :=
  callForm "if" [callForm "nil?" [.symbol "a"],
    callForm "step-range" [.int 0, .nil, .int 1],
    callForm "if" [callForm "nil?" [.symbol "b"],
      callForm "step-range" [.int 0, .symbol "a", .int 1],
      callForm "step-range" [.symbol "a", .symbol "b", callForm "or" [.symbol "step", .int 1]]]]

def rangeFunction : Closure Value :=
  ⟨"range", .atLeast 0, [.symbol "&", .symbol "args"],
    [callForm "let" [.vector [.vector [.symbol "a", .symbol "b", .symbol "step"], .symbol "args"], choiceForm]],
    .empty, false⟩

theorem definition?_range : Prelude.definition? Prelude.range = some rangeFunction := rfl

def rangeNames : List String :=
  ["range", "let", "when", "or", "nil?", "if", "<", ">", "cons", "step-range", "+", "lazy-seq"]

def stepScope (x stop step : Int64) : Scope := ⟨[("end", .int stop), ("step", .int step), ("start", .int x)]⟩

def stepBody (x stop step : Int64) : Callable Value := lazyBody (stepScope x stop step) stepForm

section

variable {w : World} {x stop step : Int64}

theorem captureForms_stepForm (x stop step : Value) :
    Closure.captureForms (World.localIn? [⟨[("start", x), ("end", stop), ("step", step)]⟩]) .empty [stepForm] =
      ⟨[("end", stop), ("step", step), ("start", x)]⟩ := by
  simp [stepForm, callForm, Closure.captureForms, Closure.captureForm, World.localIn?, Bindings.get?, Bindings.lookup,
    Bindings.insert, Bindings.place, Bindings.empty]

theorem calls_stepRange (hw : w.Knows rangeNames) (x stop step : Int64) :
    Calls w (.closure stepFunction) [.int x, .int stop, .int step]
      (.value (.lazy w.cells.size) (w.addCell (stepBody x stop step)).2) := by
  let inside := w.pushFrame ⟨[("start", .int x), ("end", .int stop), ("step", .int step)]⟩
  have hs : inside.Sees rangeNames := .of_frames ["start", "end", "step"] hw rfl rfl (by decide)
  have hbody : Evals.delayedBodyIn inside [stepForm] = stepBody x stop step := by
    rw [Evals.delayedBodyIn, show inside.local? = World.localIn? _ from funext (World.local?_of_frames_eq rfl),
      captureForms_stepForm]
    rfl
  have h : Evals inside _ _ := .delay [stepForm] (hs.special .delay (by decide))
  rw [hbody] at h
  exact calls_closure (w := w) (c := stepFunction) [.int x, .int stop, .int step]
    [.position "start", .position "end", .position "step"] rfl rfl (by decide) rfl rfl h

theorem Evals.int (w : World) (i : Int64) : Evals w (.int i) (.value (.int i) w) :=
  .self (fun _ => rfl) w

theorem calls_isNil (w : World) (v : Value) :
    Calls w (.primitive .isNil) [v] (.value (.bool v.isNil) w) :=
  (calls_primitive_iff rfl).mpr (.pure _ w)

theorem calls_less (w : World) (i j : Int64) :
    Calls w (.primitive .less) [.int i, .int j] (.value (.bool (decide (i < j))) w) :=
  (calls_primitive_iff rfl).mpr (.pure _ w)

theorem calls_greater (w : World) (i j : Int64) :
    Calls w (.primitive .greater) [.int i, .int j] (.value (.bool (decide (j < i))) w) :=
  (calls_primitive_iff rfl).mpr (.pure _ w)

theorem calls_add (w : World) (i j : Int64) :
    Calls w (.primitive .add) [.int i, .int j] (.value (.int (i + j)) w) := by
  have hsum : Arithmetic.sum [i, j] = i + j := congrArg (· + j) (Int64.zero_add i)
  rw [← hsum]
  exact (calls_primitive_iff rfl).mpr (.pure _ w)

theorem decide_before (x stop step : Int64) :
    decide (Before step.toInt x.toInt stop.toInt) =
      if 0 < step then decide (x < stop) else decide (stop < x) := by
  simp only [Before, Int64.lt_iff_toInt_lt, Int64.toInt_zero]
  split <;> rfl

theorem evals_stepForm (hw : w.Knows rangeNames) {fs : List Frame}
    (hf : w.frames = [stepScope x stop step] :: fs) :
    Evals w stepForm (if Before step.toInt x.toInt stop.toInt
      then .value (.cons (.int x) (.lazy w.cells.size)) (w.addCell (stepBody (x + step) stop step)).2
      else .value .nil w) := by
  have hs : w.Sees rangeNames := .of_frames ["end", "step", "start"] hw hf rfl (by decide)
  have hx : Evals w (.symbol "start") (.value (.int x) w) :=
    .bound hf (by decide +kernel) rfl
  have hstop : Evals w (.symbol "end") (.value (.int stop) w) :=
    .bound hf (by decide +kernel) rfl
  have hstep : Evals w (.symbol "step") (.value (.int step) w) :=
    .bound hf (by decide +kernel) rfl
  have hnil : Evals w (callForm "nil?" [.symbol "end"]) (.value (.bool false) w) :=
    .function (hs.primitive .isNil (by decide)) (.cons hstop (.nil w)) rfl (calls_isNil w (.int stop))
  have hup : Evals w (callForm "<" [.int 0, .symbol "step"]) (.value (.bool (decide (0 < step))) w) :=
    .function (hs.primitive .less (by decide)) (.cons (.int w 0) (.cons hstep (.nil w))) rfl (calls_less w 0 step)
  have hless : Evals w (callForm "<" [.symbol "start", .symbol "end"]) (.value (.bool (decide (x < stop))) w) :=
    .function (hs.primitive .less (by decide)) (.cons hx (.cons hstop (.nil w))) rfl (calls_less w x stop)
  have hgreater : Evals w (callForm ">" [.symbol "start", .symbol "end"])
      (.value (.bool (decide (stop < x))) w) :=
    .function (hs.primitive .greater (by decide)) (.cons hx (.cons hstop (.nil w))) rfl (calls_greater w x stop)
  have hif := Evals.conditional (callForm "<" [.symbol "start", .symbol "end"])
    (callForm ">" [.symbol "start", .symbol "end"]) (hs.special .conditional (by decide)) hup
    (r := .value (.bool (decide (Before step.toInt x.toInt stop.toInt))) w) (by
      rw [decide_before]
      by_cases h : 0 < step
      · rw [if_pos h, decide_eq_true h]
        exact hless
      · rw [if_neg h, decide_eq_false h]
        exact hgreater)
  have hor := Evals.disjunction (hs.special .disjunction (by decide)) hnil hif
  have hsum : Evals w (callForm "+" [.symbol "start", .symbol "step"]) (.value (.int (x + step)) w) :=
    .function (hs.primitive .add (by decide)) (.cons hx (.cons hstep (.nil w))) rfl (calls_add w x step)
  have hrest := Evals.function (hs.closure (by simp [Prelude.forms]) definition?_stepRange (by decide))
    (.cons hsum (.cons hstop (.cons hstep (.nil w)))) rfl (calls_stepRange hw (x + step) stop step)
  have hcons := Evals.function (hs.primitive .cons (by decide)) (.cons hx (.cons hrest (.nil _))) rfl
    (calls_cons_lazy _ (.int x) w.cells.size)
  refine .guarded (hs.special .guarded (by decide)) hor ?_
  by_cases h : Before step.toInt x.toInt stop.toInt
  · rw [if_pos h, decide_eq_true h]
    exact hcons
  · rw [if_neg h, decide_eq_false h]
    rfl

def choiceScopes (a b c args : Value) : Frame := [⟨[("a", a), ("b", b), ("step", c)]⟩, ⟨[("args", args)]⟩]

theorem evals_choiceForm (hw : w.Knows rangeNames) {a : Int64} {b c args : Value} {fs : List Frame}
    (hf : w.frames = choiceScopes (.int a) b c args :: fs)
    (h : if b.isNil then x = 0 ∧ stop = a ∧ step = 1
      else x = a ∧ .int stop = b ∧ .int step = if c.truthy then c else .int 1) :
    Evals w choiceForm (.value (.lazy w.cells.size) (w.addCell (stepBody x stop step)).2) := by
  have hs : w.Sees rangeNames := .of_frames ["a", "b", "step", "args"] hw hf rfl (by decide)
  have ha : Evals w (.symbol "a") (.value (.int a) w) := .bound hf (by decide +kernel) rfl
  have hb : Evals w (.symbol "b") (.value b w) := .bound hf (by decide +kernel) rfl
  have hc : Evals w (.symbol "step") (.value c w) := .bound hf (by decide +kernel) rfl
  have hisNil {name : String} {v : Value} (hv : Evals w (.symbol name) (.value v w)) :
      Evals w (callForm "nil?" [.symbol name]) (.value (.bool v.isNil) w) :=
    .function (hs.primitive .isNil (by decide)) (.cons hv (.nil w)) rfl (calls_isNil w v)
  have hmake {forms : List Value} (hv : EvalsEach w forms [.int x, .int stop, .int step] w) :
      Evals w (callForm "step-range" forms) (.value (.lazy w.cells.size) (w.addCell (stepBody x stop step)).2) :=
    .function (hs.closure (by simp [Prelude.forms]) definition?_stepRange (by decide)) hv rfl
      (calls_stepRange hw x stop step)
  refine .conditional _ _ (hs.special .conditional (by decide)) (hisNil ha) ?_
  refine .conditional _ _ (hs.special .conditional (by decide)) (hisNil hb) ?_
  cases hn : b.isNil with
  | true =>
    rw [hn] at h
    obtain ⟨rfl, rfl, rfl⟩ := h
    exact hmake (.cons (.int w 0) (.cons ha (.cons (.int w 1) (.nil w))))
  | false =>
    rw [hn] at h
    obtain ⟨rfl, rfl, hstep⟩ := h
    have hor : Evals w (callForm "or" [.symbol "step", .int 1]) (.value (.int step) w) := by
      refine .disjunction (hs.special .disjunction (by decide)) hc ?_
      cases ht : c.truthy with
      | true =>
        rw [ht] at hstep
        rw [hstep]
        rfl
      | false =>
        rw [ht] at hstep
        rw [hstep]
        exact .int w 1
    exact hmake (.cons ha (.cons hb (.cons hor (.nil w))))

theorem calls_range_of_choice (hw : w.Knows rangeNames) {vs : List Value} {a b c : Value}
    (h : Slot.bindings vs vs [.position "a", .position "b", .position "step"] = [("a", a), ("b", b), ("step", c)])
    (hchoice : Evals { w with frames := choiceScopes a b c (.vector vs) :: w.frames } choiceForm
      (.value (.lazy w.cells.size)
        (World.addCell { w with frames := choiceScopes a b c (.vector vs) :: w.frames } (stepBody x stop step)).2)) :
    Calls w (.closure rangeFunction) vs (.value (.lazy w.cells.size) (w.addCell (stepBody x stop step)).2) := by
  let outer : Scope := ⟨[("args", .vector vs)]⟩
  have hs : (w.pushFrame outer).Sees rangeNames := .of_frames ["args"] hw rfl rfl (by decide)
  have hargs : Evals (w.inScope [outer] w.frames .empty) (.symbol "args")
      (.value (.vector vs) (w.inScope [outer] w.frames .empty)) := .bound rfl (by decide +kernel) rfl
  have hslots : slots [.symbol "a", .symbol "b", .symbol "step"] =
      some [.position "a", .position "b", .position "step"] := rfl
  have hmatch := Slot.eventually_destructure (by decide) hslots vs w [outer] w.frames .empty
  rw [h] at hmatch
  have hlet := Evals.binding (hs.special .binding (by decide)) hargs hmatch hchoice
  exact calls_closure (w := w) (c := rangeFunction) vs [.rest "args"] rfl rfl (by decide) rfl
    rfl hlet

def bounds? : List Int64 → Option (Int64 × Int64 × Int64)
  | [stop] => some (0, stop, 1)
  | [start, stop] => some (start, stop, 1)
  | [start, stop, step] => some (start, stop, step)
  | _ => none

theorem calls_range (hw : w.Knows rangeNames) {args : List Int64} (hb : bounds? args = some (x, stop, step)) :
    CallsNamed w "range" (args.map .int)
      (.value (.lazy w.cells.size) (w.addCell (stepBody x stop step)).2) := by
  refine hw.callsNamed (by simp [Prelude.forms]) definition?_range (by decide) ?_
  match args, hb with
  | [_], rfl => exact calls_range_of_choice hw rfl (evals_choiceForm hw rfl ⟨rfl, rfl, rfl⟩)
  | [_, _], rfl => exact calls_range_of_choice hw rfl (evals_choiceForm hw rfl ⟨rfl, rfl, rfl⟩)
  | [_, _, _], rfl => exact calls_range_of_choice hw rfl (evals_choiceForm hw rfl ⟨rfl, rfl, rfl⟩)

end

inductive Advances : World → Value → List Value → World → Value → Prop
  | start (w : World) (v : Value) : Advances w v [] w v
  | next {w u w' : World} {v s x rest r : Value} {xs : List Value} : Forces w v (.value s u) →
      s.split? = some (x, rest) → Advances u rest xs w' r → Advances w v (x :: xs) w' r

namespace Advances

variable {w u w' : World} {v r : Value} {xs ys : List Value}

theorem taken (h : Advances w v xs u r) : Taken w v xs.length xs u := by
  induction h with
  | start w v => exact .enough w v
  | next hf hn _ ih => exact .next hf hn ih

theorem yields (h : Advances w v xs u r) (hr : Yields u r ys w') : Yields w v (xs ++ ys) w' := by
  induction h with
  | start w v => exact hr
  | next hf hn _ ih => exact .next hf hn (ih hr)

end Advances

theorem Taken.eq_take {w u w' : World} {v : Value} {n : Nat} {xs ys : List Value} (h : Taken w v n ys u)
    (hy : Yields w v xs w') : ys = xs.take n := by
  induction h generalizing xs with
  | enough w v => rfl
  | ended hf hn =>
    cases hy with
    | done => rfl
    | next hf' hn' =>
      cases hf.unique hf'
      cases hn.symm.trans hn'
  | next hf hn _ ih =>
    cases hy with
    | done hf' _ hn' =>
      cases hf.unique hf'
      cases hn.symm.trans hn'
    | next hf' hn' hy =>
      cases hf.unique hf'
      cases hn.symm.trans hn'
      rw [List.take_succ_cons, ih hy]

section

variable {w : World} {i : Nat} {a : Int} {stop step : Int64}

theorem yields_ended {x : Int64} (hw : w.Knows rangeNames)
    (hc : w.cells[i]? = some ⟨w.era, .unrealized (stepBody x stop step)⟩)
    (h : ¬ Before step.toInt x.toInt stop.toInt) : ∃ w', Yields w (.lazy i) [] w' := by
  have hbody := evals_stepForm (w := w.inBody i (stepScope x stop step)) hw rfl
  rw [if_neg h] at hbody
  have hr := Realizes.of_evals hc hbody rfl
  exact ⟨_, .done ((Forces.lazy_iff hr).mpr (.of_not_lazy (v := .list []) nofun _)) rfl rfl⟩

theorem forces_step {x : Int64} (hw : w.Knows rangeNames)
    (hc : w.cells[i]? = some ⟨w.era, .unrealized (stepBody x stop step)⟩)
    (h : Before step.toInt x.toInt stop.toInt) :
    ∃ u j, Forces w (.lazy i) (.value (.cons (.int x) (.lazy j)) u) ∧ u.Knows rangeNames ∧
      u.cells[j]? = some ⟨u.era, .unrealized (stepBody (x + step) stop step)⟩ := by
  have hbody := evals_stepForm (w := w.inBody i (stepScope x stop step)) hw rfl
  rw [if_pos h] at hbody
  have hr := Realizes.of_evals hc hbody rfl
  refine ⟨_, _, (Forces.lazy_iff hr).mpr (.of_not_lazy (v := .cons _ _) nofun _), hw, ?_⟩
  exact World.getElem?_leaveBody_addCell hc (.of_cells_eq rfl) _ _

theorem advances_terms (hw : w.Knows rangeNames)
    (hc : w.cells[i]? = some ⟨w.era, .unrealized (stepBody (.ofInt a) stop step)⟩) (n : Nat)
    (h : ∀ k < n, Before step.toInt (Int64.ofInt (a + k * step.toInt)).toInt stop.toInt) :
    ∃ u j, Advances w (.lazy i) (((terms a step.toInt n).map Int64.ofInt).map .int) u (.lazy j) ∧ u.Knows rangeNames ∧
      u.cells[j]? = some ⟨u.era, .unrealized (stepBody (.ofInt (a + n * step.toInt)) stop step)⟩ := by
  induction n generalizing w i a with
  | zero =>
    refine ⟨w, i, .start w _, hw, ?_⟩
    simpa using hc
  | succ n ih =>
    have hfirst : Before step.toInt (Int64.ofInt a).toInt stop.toInt := by simpa using h 0 (Nat.succ_pos n)
    obtain ⟨u, j, hf, hu, hj⟩ := forces_step hw hc hfirst
    have hsum : Int64.ofInt a + step = .ofInt (a + step.toInt) := by
      rw [Int64.ofInt_add, Int64.ofInt_toInt]
    rw [hsum] at hj
    obtain ⟨w', j', hl, hw', hj'⟩ := ih hu hj fun k hk => by
      rw [← add_succ_mul]
      exact h (k + 1) (Nat.succ_lt_succ hk)
    rw [← add_succ_mul] at hj'
    rw [terms_succ]
    exact ⟨w', j', .next hf rfl hl, hw', hj'⟩

end

section

variable {start stop step : Int64}

theorem toInt_ne_zero (hs : step ≠ 0) : step.toInt ≠ 0 := fun h => hs (Int64.toInt_inj.mp h)

theorem toInt_ofInt_term (hs : step ≠ 0) {k : Nat} (hk : k < termCount start.toInt stop.toInt step.toInt) :
    (Int64.ofInt (start.toInt + k * step.toInt)).toInt = start.toInt + k * step.toInt := by
  have hb := (lt_termCount_iff (toInt_ne_zero hs) _ _ k).mp hk
  have hstart := And.intro start.le_toInt start.toInt_lt
  have hstop := And.intro stop.le_toInt stop.toInt_lt
  unfold Before at hb
  by_cases h : 0 < step.toInt
  · rw [if_pos h] at hb
    have hprod : 0 ≤ k * step.toInt := Int.mul_nonneg (Int.natCast_nonneg k) (Int.le_of_lt h)
    exact Int64.toInt_ofInt_of_le (by omega) (by omega)
  · rw [if_neg h] at hb
    have hprod : k * step.toInt ≤ 0 := Int.mul_nonpos_of_nonneg_of_nonpos (Int.natCast_nonneg k) (Int.not_lt.mp h)
    exact Int64.toInt_ofInt_of_le (by omega) (by omega)

theorem before_term (hs : step ≠ 0) {k : Nat} (hk : k < termCount start.toInt stop.toInt step.toInt) :
    Before step.toInt (Int64.ofInt (start.toInt + k * step.toInt)).toInt stop.toInt := by
  rw [toInt_ofInt_term hs hk]
  exact (lt_termCount_iff (toInt_ne_zero hs) _ _ k).mp hk

theorem map_toInt_progression (hs : step ≠ 0) :
    ((progression start.toInt stop.toInt step.toInt).map Int64.ofInt).map Int64.toInt =
      progression start.toInt stop.toInt step.toInt := by
  simp only [progression, terms, List.map_map]
  refine List.map_congr_left fun k hk => ?_
  exact toInt_ofInt_term hs (List.mem_range.mp hk)

def following (start stop step : Int) : Int := start + termCount start stop step * step

/-- A sum with more than 64 bits is taken for one on the other side, which comes before the bound again. -/
theorem before_add {last : Int64} (hb : Before step.toInt last.toInt stop.toInt)
    (h : ¬ InWord (last.toInt + step.toInt)) : Before step.toInt (last + step).toInt stop.toInt := by
  have hlast := And.intro last.le_toInt last.toInt_lt
  have hstep := And.intro step.le_toInt step.toInt_lt
  rw [Int64.toInt_add, Int.bmod_def]
  unfold InWord at h
  unfold Before at hb ⊢
  by_cases hup : 0 < step.toInt
  · rw [if_pos hup] at hb ⊢
    split <;> omega
  · rw [if_neg hup] at hb ⊢
    split <;> omega

theorem before_following (hs : step ≠ 0) (h : ¬ InWord (following start.toInt stop.toInt step.toInt)) :
    Before step.toInt (Int64.ofInt (following start.toInt stop.toInt step.toInt)).toInt stop.toInt := by
  cases hn : termCount start.toInt stop.toInt step.toInt with
  | zero =>
    have hstart : InWord start.toInt := ⟨start.le_toInt, Int.le_sub_one_of_lt start.toInt_lt⟩
    rw [following, hn, Int.natCast_zero, Int.zero_mul, Int.add_zero] at h
    exact absurd hstart h
  | succ m =>
    have hm : m < termCount start.toInt stop.toInt step.toInt := by omega
    have hsum : following start.toInt stop.toInt step.toInt =
        (Int64.ofInt (start.toInt + m * step.toInt)).toInt + step.toInt := by
      rw [toInt_ofInt_term hs hm, following, hn, add_succ_mul]
      omega
    rw [hsum] at h ⊢
    rw [Int64.ofInt_add, Int64.ofInt_toInt, Int64.ofInt_toInt]
    exact before_add (before_term hs hm) h

theorem not_before_following (hs : step ≠ 0) (h : InWord (following start.toInt stop.toInt step.toInt)) :
    ¬ Before step.toInt (Int64.ofInt (following start.toInt stop.toInt step.toInt)).toInt stop.toInt := by
  rw [Source.Numeral.toInt_ofInt_of_fits (Source.fits_iff_inWord.mpr h)]
  exact mt (lt_termCount_iff (toInt_ne_zero hs) _ _ _).mpr (Nat.lt_irrefl _)

theorem inWord_following_one (start stop : Int64) : InWord (following start.toInt stop.toInt 1) := by
  have hstart := And.intro start.le_toInt start.toInt_lt
  have hstop := And.intro stop.le_toInt stop.toInt_lt
  rw [InWord, following, termCount, if_pos Int.one_pos, Int.ediv_one]
  omega

end

def RangeGives (w : World) (args : List Int64) (xs : List Int) : Prop :=
  ∃ (s : Value) (u w' : World) (ys : List Int64), CallsNamed w "range" (args.map .int) (.value s u) ∧
    Yields u s (ys.map .int) w' ∧ ys.map Int64.toInt = xs

section

variable {w : World} {args : List Int64} {start stop step : Int64}

theorem range_advances (hw : w.Knows rangeNames) (hb : bounds? args = some (start, stop, step)) {n : Nat}
    (h : ∀ k < n, Before step.toInt (Int64.ofInt (start.toInt + k * step.toInt)).toInt stop.toInt) :
    ∃ s u u' j, CallsNamed w "range" (args.map .int) (.value s u) ∧
      Advances u s (((terms start.toInt step.toInt n).map Int64.ofInt).map .int) u' (.lazy j) ∧
      u'.Knows rangeNames ∧ u'.cells[j]? =
        some ⟨u'.era, .unrealized (stepBody (.ofInt (start.toInt + n * step.toInt)) stop step)⟩ := by
  have hc : (w.addCell (stepBody start stop step)).2.cells[w.cells.size]? =
      some ⟨w.era, .unrealized (stepBody (.ofInt start.toInt) stop step)⟩ := by
    rw [Int64.ofInt_toInt]
    exact (World.getElem?_addCell w _ w.cells.size).trans (if_pos rfl)
  obtain ⟨u', j, hl, hu', hj⟩ := advances_terms (w := (w.addCell (stepBody start stop step)).2) hw hc n h
  exact ⟨_, _, u', j, calls_range hw hb, hl, hu', hj⟩

theorem rangeGives_progression (hw : w.Knows rangeNames) (hb : bounds? args = some (start, stop, step))
    (hs : step ≠ 0) (h : InWord (following start.toInt stop.toInt step.toInt)) :
    RangeGives w args (progression start.toInt stop.toInt step.toInt) := by
  obtain ⟨s, u, u', j, hcall, hl, hu', hj⟩ := range_advances hw hb fun k hk => before_term hs hk
  obtain ⟨w', hend⟩ := yields_ended hu' hj (not_before_following hs h)
  have hy := hl.yields hend
  rw [List.append_nil] at hy
  exact ⟨s, u, w', _, hcall, hy, map_toInt_progression hs⟩

theorem range_goes_on (hw : w.Knows rangeNames) (hb : bounds? args = some (start, stop, step)) (hs : step ≠ 0)
    (h : ¬ InWord (following start.toInt stop.toInt step.toInt)) :
    ∃ (s : Value) (u w' : World) (ys : List Int64),
      CallsNamed w "range" (args.map .int) (.value s u) ∧
      Taken u s (ys.length + 1) ((ys ++ [Int64.ofInt (following start.toInt stop.toInt step.toInt)]).map .int) w' ∧
      ys.map Int64.toInt = progression start.toInt stop.toInt step.toInt := by
  have hbefore : ∀ k < termCount start.toInt stop.toInt step.toInt + 1,
      Before step.toInt (Int64.ofInt (start.toInt + k * step.toInt)).toInt stop.toInt := by
    intro k hk
    rcases Nat.lt_succ_iff_lt_or_eq.mp hk with hk | rfl
    · exact before_term hs hk
    · exact before_following hs h
  obtain ⟨s, u, u', j, hcall, hl, -, -⟩ := range_advances hw hb hbefore
  have hterms : terms start.toInt step.toInt (termCount start.toInt stop.toInt step.toInt + 1) =
      progression start.toInt stop.toInt step.toInt ++ [following start.toInt stop.toInt step.toInt] := by
    simp only [terms, progression, following, List.range_succ, List.map_append, List.map_cons, List.map_nil]
  have ht := hl.taken
  rw [hterms, List.map_append] at ht
  refine ⟨s, u, u', _, hcall, ?_, map_toInt_progression hs⟩
  simpa using ht

theorem not_rangeGives_progression (hw : w.Knows rangeNames) (hb : bounds? args = some (start, stop, step))
    (hs : step ≠ 0) (h : ¬ InWord (following start.toInt stop.toInt step.toInt)) :
    ¬ RangeGives w args (progression start.toInt stop.toInt step.toInt) := by
  rintro ⟨s, u, w', xs, hcall, hx, hxs⟩
  obtain ⟨s', u', w'', ys, hcall', hy, hys⟩ := range_goes_on hw hb hs h
  cases hcall.unique hcall'
  have htake := congrArg List.length (hy.eq_take hx)
  have hxy := congrArg List.length (hxs.trans hys.symm)
  simp only [List.length_map, List.length_append, List.length_take, List.length_singleton] at htake hxy
  omega

end

/-- With these arguments `range` gives the progression exactly if the integer after it has 64 bits, as it has if the
step is not given; else it goes on after the progression. -/
theorem range_progression {w : World} (hw : w.Knows rangeNames) {args : List Int64} {start stop step : Int64}
    (hb : bounds? args = some (start, stop, step)) (hs : step ≠ 0) :
    (∀ k : Nat, (progression start.toInt stop.toInt step.toInt)[k]? =
      if Before step.toInt (start.toInt + k * step.toInt) stop.toInt then some (start.toInt + k * step.toInt)
      else none) ∧
    (RangeGives w args (progression start.toInt stop.toInt step.toInt) ↔
      InWord (following start.toInt stop.toInt step.toInt)) ∧
    (¬ InWord (following start.toInt stop.toInt step.toInt) →
      ∃ (s : Value) (u w' : World) (ys : List Int64),
        CallsNamed w "range" (args.map .int) (.value s u) ∧
        Taken u s (ys.length + 1) ((ys ++ [Int64.ofInt (following start.toInt stop.toInt step.toInt)]).map .int) w' ∧
        ys.map Int64.toInt = progression start.toInt stop.toInt step.toInt) ∧
    (args.length < 3 → RangeGives w args (progression start.toInt stop.toInt step.toInt)) := by
  refine ⟨getElem?_progression (toInt_ne_zero hs) _ _, ⟨?_, rangeGives_progression hw hb hs⟩,
    range_goes_on hw hb hs, fun hlt => ?_⟩
  · intro hgives
    by_contra hword
    exact not_rangeGives_progression hw hb hs hword hgives
  · have hstep : step = 1 := by
      match args, hb with
      | [_], rfl => rfl
      | [_, _], rfl => rfl
      | [_, _, _], _ => exact absurd hlt (Nat.lt_irrefl 3)
    subst hstep
    exact rangeGives_progression hw hb hs (inWord_following_one start stop)

theorem range_progression_limits :
    RangeGives World.standard [10, 4, -3] [10, 7] ∧
      RangeGives World.standard [9223372036854775793, 9223372036854775807, 7]
        [9223372036854775793, 9223372036854775800] := by
  have hdown : progression (Int64.toInt 10) (Int64.toInt 4) (Int64.toInt (-3)) = [10, 7] := by decide
  have hlimit : progression (Int64.toInt 9223372036854775793) (Int64.toInt 9223372036854775807) (Int64.toInt 7) =
      [9223372036854775793, 9223372036854775800] := by decide
  rw [← hdown, ← hlimit]
  have hknows := World.knows_standard rangeNames
  exact ⟨(range_progression hknows rfl (by decide)).2.1.mpr ⟨by decide, by decide⟩,
    (range_progression hknows rfl (by decide)).2.1.mpr ⟨by decide, by decide⟩⟩

theorem range_goes_on_wrapped :
    progression 9223372036854775806 9223372036854775807 2 = [9223372036854775806] ∧
      ¬ RangeGives World.standard [9223372036854775806, 9223372036854775807, 2]
        (progression 9223372036854775806 9223372036854775807 2) := by
  have hword : ¬ InWord (following (Int64.toInt 9223372036854775806) (Int64.toInt 9223372036854775807)
      (Int64.toInt 2)) := fun h => absurd h.2 (by decide)
  exact ⟨by decide, not_rangeGives_progression (World.knows_standard rangeNames) rfl (by decide) hword⟩

end LazyLisp
