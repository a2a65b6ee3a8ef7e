import LazyLisp.Proofs.Fuel
import LazyLisp.Proofs.Scoping

namespace LazyLisp

namespace Closure

variable {find : String → Option Value}

mutual

theorem get?_captureForm (captured : Bindings Value) (x : String) :
    ∀ v : Value, (captureForm find captured v).get? x =
      if x ∈ v.symbols then (find x).or (captured.get? x) else captured.get? x
  | .atom (.symbol name) => by
    by_cases hx : x = name
    · subst hx
      cases hf : find x <;> simp [captureForm, Value.symbols, hf]
    · cases hf : find name with
      | none => simp [captureForm, Value.symbols, hf, hx]
      | some v => simp [captureForm, Value.symbols, hf, hx, Bindings.get?_insert_of_ne _ (Ne.symm hx)]
  | .list forms => get?_captureForms captured x forms
  | .vector forms => get?_captureForms captured x forms
  | .map entries => get?_captureEntries captured x entries
  | .atom .nil | .atom (.bool _) | .atom (.int _) | .atom (.str _) | .atom (.char _)
  | .atom (.keyword _) | .cons _ _ | .lazy _ | .callable _ _ => rfl

theorem get?_captureForms (captured : Bindings Value) (x : String) :
    ∀ forms : List Value, (captureForms find captured forms).get? x =
      if x ∈ Value.itemSymbols forms then (find x).or (captured.get? x) else captured.get? x
  | [] => rfl
  | v :: rest => by
    rw [captureForms, get?_captureForms _ x rest, get?_captureForm captured x v]
    by_cases hv : x ∈ v.symbols <;> by_cases hr : x ∈ Value.itemSymbols rest <;>
      cases find x <;> simp [Value.itemSymbols, hv, hr]

theorem get?_captureEntries (captured : Bindings Value) (x : String) :
    ∀ entries : List (Value × Value), (captureEntries find captured entries).get? x =
      if x ∈ Value.entrySymbols entries then (find x).or (captured.get? x) else captured.get? x
  | [] => rfl
  | (key, value) :: rest => by
    rw [captureEntries, get?_captureEntries _ x rest, get?_captureForm _ x value,
      get?_captureForm captured x key]
    by_cases hk : x ∈ key.symbols <;> by_cases hv : x ∈ value.symbols <;>
      by_cases hr : x ∈ Value.entrySymbols rest <;> cases find x <;>
      simp [Value.entrySymbols, hk, hv, hr]

end

end Closure

def World.visible (w : World) : Scope := ⟨w.topFrame.flatMap Bindings.entries⟩

theorem Bindings.lookup_append {α : Type} (es ds : List (String × α)) (x : String) :
    lookup (es ++ ds) x = (lookup es x).or (lookup ds x) := by
  induction es with
  | nil => rfl
  | cons e es ih =>
    obtain ⟨key, value⟩ := e
    by_cases h : key = x <;> simp [lookup, h, ih]

theorem World.get?_visible (w : World) (x : String) : w.visible.get? x = w.local? x := by
  have hf (f : Frame) : Bindings.lookup (f.flatMap Bindings.entries) x = localIn? f x := by
    induction f with
    | nil => rfl
    | cons s f ih => rw [List.flatMap_cons, Bindings.lookup_append, ih, localIn?, Bindings.get?]
  exact hf w.topFrame

theorem Closure.captured_of_make {name : String} {bindsSelf : Bool} {parameters body : List Value}
    {w w' : World} {c : Closure Value} (h : make name bindsSelf parameters body w = .value c w') :
    c.body = body ∧ c.captured = captureForms w.local? .empty body := by
  unfold make at h
  cases ha : arityOf parameters with
  | ok arity =>
    rw [ha] at h
    cases h
    exact ⟨rfl, rfl⟩
  | error e =>
    rw [ha] at h
    cases h

theorem Closure.get?_captured_of_make {name : String} {bindsSelf : Bool} {parameters body : List Value}
    {w w' : World} {c : Closure Value} (h : make name bindsSelf parameters body w = .value c w')
    {x : String} (hx : x ∈ Value.itemSymbols c.body) : c.captured.get? x = w.visible.get? x := by
  obtain ⟨hb, hc⟩ := captured_of_make h
  rw [hb] at hx
  rw [hc, get?_captureForms, if_pos hx, World.get?_visible]
  simp

theorem Outcome.forgetFrames_eq_outOfFuel {α : Type} {r : Outcome α} :
    r.forgetFrames = .outOfFuel ↔ r = .outOfFuel := by
  cases r <;> simp [forgetFrames]

theorem Below.forgetFrames_eq {α : Type} {m m' above above' : Eval α} {w w' : World} (h : Below m above)
    (h' : Below m' above') (he : (m w).forgetFrames = (m' w').forgetFrames)
    (hw : m w ≠ .outOfFuel ∨ m' w' ≠ .outOfFuel) :
    (above w).forgetFrames = (above' w').forgetFrames := by
  have hi : m w = .outOfFuel ↔ m' w' = .outOfFuel := by
    rw [← Outcome.forgetFrames_eq_outOfFuel, he, Outcome.forgetFrames_eq_outOfFuel]
  have hl : m w ≠ .outOfFuel := hw.elim id fun hr hl => hr (hi.mp hl)
  have hr : m' w' ≠ .outOfFuel := fun hr => hl (hi.mpr hr)
  rw [h.eq_of_ne hl, h'.eq_of_ne hr, he]

namespace Kernel

variable {c : Closure Value} {kept kept' : Scope}

theorem callOver_eq_bind (k : Kernel) (c : Closure Value) (kept : Scope) (a : Args) :
    k.callOver c kept a = k.values a >>= fun vs => k.callOver c kept (.ofValues vs) := by
  simp only [callOver, values_ofValues, pure_bind]

theorem corresponds_callOver (n : Nat) (names : String → Prop)
    (hk : ∀ x ∈ Value.itemSymbols c.body, kept.get? x = kept'.get? x) (vs : List Value) :
    Corresponds names ((barring Callable.readsFrame n).callOver c kept (.ofValues vs))
      ((barring Callable.readsFrame n).callOver c kept' (.ofValues vs)) := by
  have hf (names : String → Prop) :
      lexical.Follows names (barring Callable.readsFrame n) (barring Callable.readsFrame n) :=
    Simulation.follows_barring lexical_global (fun _ hx => hx) (fun _ _ => .inl rfl) (fun _ => trivial) (.inl rfl)
      fun _ _ hr => .inl hr
  -- In its own frame the call looks up the symbols of its body and no others.
  have hb : CorrespondsOpen (· ∈ Value.itemSymbols c.body) ((barring Callable.readsFrame n).callBody c vs)
      ((barring Callable.readsFrame n).callBody c vs) := by
    refine (hf (· ∈ Value.itemSymbols c.body)).open_callBody (hf _) (fun v hv x hx => ?_) vs
    exact Value.mem_itemSymbols.mpr ⟨v, hv, hx⟩
  simp only [callOver, values_ofValues, pure_bind, scopeOver]
  refine lexical.rel_bind (Simulation.rel_requireArity c.name c.arity vs.length) fun _ => ?_
  by_cases hs : c.bindsSelf = true
  · simp only [if_pos hs, bind_assoc, pure_bind]
    refine lexical.rel_bind (lexical.rel_newCallable (.closure c)) fun self => ?_
    refine Corresponds.withFrame hb fun x hx => ?_
    rw [Bindings.get?_insert, Bindings.get?_insert, hk x hx]
  · simp only [if_neg hs, pure_bind]
    exact Corresponds.withFrame hb hk

theorem below_callOver (n : Nat) (c : Closure Value) (kept : Scope) (vs : List Value) :
    Below ((barring Callable.readsFrame n).callOver c kept (.ofValues vs))
      ((withFuel n).callOver c kept (.ofValues vs)) := by
  refine (earlier_follows Callable.readsFrame (Nat.le_refl n)).rel_callOver (i := ()) c kept ?_
  rw [values_ofValues, values_ofValues]
  exact .refl _

theorem callOver_eq_of_get?_eq (n : Nat) {w : World}
    (hk : ∀ x ∈ Value.itemSymbols c.body, kept.get? x = kept'.get? x) (vs : List Value)
    (h : (barring Callable.readsFrame n).callOver c kept (.ofValues vs) w ≠ .outOfFuel ∨
      (barring Callable.readsFrame n).callOver c kept' (.ofValues vs) w ≠ .outOfFuel) :
    ((withFuel n).callOver c kept (.ofValues vs) w).forgetFrames =
      ((withFuel n).callOver c kept' (.ofValues vs) w).forgetFrames := by
  have hc : Corresponds (fun _ => True) ((barring Callable.readsFrame n).callOver c kept (.ofValues vs))
      ((barring Callable.readsFrame n).callOver c kept' (.ofValues vs)) :=
    corresponds_callOver n _ hk vs
  exact (below_callOver n c kept vs).forgetFrames_eq (below_callOver n c kept' vs)
    (hc.forgetFrames_eq fun _ _ => rfl) h

/-- A closure keeps all that its calls need: a call that ends without looking at its frame as a whole
has the same outcome if all bindings are kept that were visible when the closure was made. -/
theorem callClosure_eq_callOver_visible {name : String} {bindsSelf : Bool}
    {parameters body : List Value} {made : World} {c : Closure Value}
    (hc : Closure.make name bindsSelf parameters body made = .value c made) (n : Nat) (a : Args)
    (w : World)
    (h : ∀ vs w', (withFuel n).values a w = .value vs w' →
      (barring Callable.readsFrame n).callClosure c (.ofValues vs) w' ≠ .outOfFuel ∨
      (barring Callable.readsFrame n).callOver c made.visible (.ofValues vs) w' ≠ .outOfFuel) :
    ((withFuel n).callClosure c a w).forgetFrames =
      ((withFuel n).callOver c made.visible a w).forgetFrames := by
  rw [callClosure_eq_callOver, callOver_eq_bind, callOver_eq_bind _ _ made.visible, Eval.bind_apply,
    Eval.bind_apply]
  cases hv : (withFuel n).values a w with
  | value vs w' =>
    exact callOver_eq_of_get?_eq n (fun x hx => Closure.get?_captured_of_make hc hx) vs (h vs w' hv)
  | failure e w' => rfl
  | outOfFuel => rfl

def pairing : Value :=
  .list [.symbol "let", .vector [.symbol "q", .symbol "p"], .vector [.symbol "x", .symbol "q"]]

def pairWithX : Closure Value :=
  ⟨"f", .exactly 1, [.symbol "p"], [pairing], Bindings.empty.insert "x" (.int 7), true⟩

theorem callClosure_eq_callOver_visible_pairing :
    ∃ w r, Closure.make "f" true [.symbol "p"] [pairing] letWorld = .value pairWithX letWorld ∧
      w.local? "x" = some .nil ∧
      (withFuel 4).callClosure pairWithX (.ofValues [.int 5]) w = .value (.vector [.int 7, .int 5]) r ∧
      ((withFuel 4).callClosure pairWithX (.ofValues [.int 5]) w).forgetFrames =
        ((withFuel 4).callOver pairWithX letWorld.visible (.ofValues [.int 5]) w).forgetFrames := by
  have hc : Closure.make "f" true [.symbol "p"] [pairing] letWorld = .value pairWithX letWorld := rfl
  refine ⟨{ letWorld with frames := [[Bindings.empty.insert "x" .nil]] }, _, hc, rfl, rfl, ?_⟩
  refine callClosure_eq_callOver_visible hc 4 (.ofValues [.int 5]) _ fun vs w' hv => .inl ?_
  rw [values_ofValues] at hv
  cases hv
  exact nofun

end Kernel

end LazyLisp
