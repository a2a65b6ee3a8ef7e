import LazyLisp.Proofs.Simulation.Primitives

namespace LazyLisp

namespace Closure

variable {find find' : String → Option Value}

mutual

theorem captureForm_congr (captured : Bindings Value) :
    ∀ v : Value, (∀ x ∈ v.symbols, find x = find' x) →
      captureForm find captured v = captureForm find' captured v
  | .atom (.symbol name), h => by
    have hn := h name (by simp [Value.symbols])
    simp [captureForm, hn]
  | .list forms, h => captureForms_congr captured forms h
  | .vector forms, h => captureForms_congr captured forms h
  | .map entries, h => captureEntries_congr captured entries h
  | .atom .nil, _ | .atom (.bool _), _ | .atom (.int _), _ | .atom (.str _), _
  | .atom (.char _), _ | .atom (.keyword _), _ | .cons _ _, _ | .lazy _, _ | .callable _ _, _ => rfl

theorem captureForms_congr (captured : Bindings Value) :
    ∀ forms : List Value, (∀ x ∈ Value.itemSymbols forms, find x = find' x) →
      captureForms find captured forms = captureForms find' captured forms
  | [], _ => rfl
  | v :: rest, h => by
    have hv := captureForm_congr captured v fun x hx => h x (by simp [Value.itemSymbols, hx])
    have hr := captureForms_congr (captureForm find' captured v) rest
      fun x hx => h x (by simp [Value.itemSymbols, hx])
    rw [captureForms, hv, hr, captureForms]

theorem captureEntries_congr (captured : Bindings Value) :
    ∀ entries : List (Value × Value), (∀ x ∈ Value.entrySymbols entries, find x = find' x) →
      captureEntries find captured entries = captureEntries find' captured entries
  | [], _ => rfl
  | (key, value) :: rest, h => by
    have hk := captureForm_congr captured key fun x hx => h x (by simp [Value.entrySymbols, hx])
    have hv := captureForm_congr (captureForm find' captured key) value
      fun x hx => h x (by simp [Value.entrySymbols, hx])
    have hr := captureEntries_congr (captureForm find' (captureForm find' captured key) value) rest
      fun x hx => h x (by simp [Value.entrySymbols, hx])
    rw [captureEntries, hk, hv, hr, captureEntries]

end

theorem isNoScope_of_arityFrom {positions : Nat} {parameters : List Value} {e : Failure}
    (h : arityFrom positions parameters = .error e) : e.isNoScope = false := by
  fun_induction arityFrom positions parameters with
  | case1 => cases h
  | case2 =>
    cases h
    rfl
  | case3 => cases h
  | case4 => cases h
  | case5 positions p q rest hp ih => exact ih h
  | case6 positions p q rest hp ih => exact ih h

end Closure

namespace Kernel

def callBody (k : Kernel) (c : Closure Value) (values : List Value) : Eval Value := do
  k.destructure (.vector c.parameters) (.vector values)
  k.evalRest (.ofForms c.body)

def scopeOver (c : Closure Value) (kept : Scope) : Eval Scope :=
  if c.bindsSelf then do
    let self ← Eval.newCallable (.closure c)
    pure (kept.insert c.name self)
  else pure kept

def callOver (k : Kernel) (c : Closure Value) (kept : Scope) (a : Args) : Eval Value := do
  let values ← k.values a
  Eval.requireArity c.name c.arity values.length
  let scope ← scopeOver c kept
  Eval.withFrame scope (k.callBody c values)

theorem callClosure_eq_callOver (k : Kernel) (c : Closure Value) (a : Args) :
    k.callClosure c a = k.callOver c c.captured a := rfl

theorem values_ofValues (k : Kernel) (vs : List Value) : k.values (.ofValues vs) = pure vs := by
  induction vs with
  | nil => rfl
  | cons v vs ih =>
    change (do
      let rest ← k.values (.ofValues vs)
      pure (v :: rest)) = _
    rw [ih, pure_bind]

end Kernel

namespace Args

def bodyAfterParameters (a : Args) : List Value :=
  match a.items with
  | .vector parameters :: body => if (Closure.arityOf parameters).isOk then body else []
  | _ => []

def functionBody (a : Args) : List Value :=
  match a.next? with
  | some (.symbol _, rest) => rest.bodyAfterParameters
  | _ => a.bodyAfterParameters

def definitionBody (a : Args) : List Value :=
  match a.next? with
  | some (_, rest) => (Kernel.withoutDocumentation rest).bodyAfterParameters
  | none => []

end Args

/-- The forms of which a call makes a closure or a lazy sequence, keeping the local values of their
symbols. -/
def Callable.closesOver : Callable Value → Args → List Value
  | .special .function, a => a.functionBody
  | .special .functionDefinition, a => a.definitionBody
  | .special .delay, a => a.items
  | _, _ => []

namespace Simulation

variable {D : Simulation} {k k' : Kernel} {i : D.Place}

def KeepsAlike (D : Simulation) (i : D.Place) (forms : List Value) : Prop :=
  ∀ x ∈ Value.itemSymbols forms, D.Agrees i x

theorem open_pure {α : Type} (a : α) : D.Open i (pure a : Eval α) (pure a) := D.open_rel (D.rel_pure a)

theorem open_fail {α : Type} {e : Failure} (he : e.isNoScope = false) :
    D.Open i (Eval.fail e : Eval α) (Eval.fail e) := D.open_rel (D.rel_fail he)

theorem rel_make (name : String) (bindsSelf : Bool) (parameters : List Value) {body : List Value}
    (hb : (Closure.arityOf parameters).isOk = true → D.KeepsAlike i body) :
    D.Rel i (Closure.make name bindsSelf parameters body)
      (Closure.make name bindsSelf parameters body) := by
  unfold Closure.make
  cases ha : Closure.arityOf parameters with
  | error e => exact D.rel_fail (α := Closure Value) (Closure.isNoScope_of_arityFrom ha)
  | ok arity =>
    have hd : DependsOn (D.Agrees i) fun w => Closure.captureForms w.local? .empty body := fun w fs hs =>
      Closure.captureForms_congr .empty body fun x hx => hs x (hb (by rw [ha]; rfl) x hx)
    refine D.rel_bind (D.rel_pure arity) fun arity => ?_
    exact D.rel_bind (D.rel_look hd (fun _ _ => rfl) fun _ _ _ _ => rfl) fun captured => D.rel_pure _

theorem rel_scopeOver (c : Closure Value) (kept : Scope) :
    D.Rel i (Kernel.scopeOver c kept) (Kernel.scopeOver c kept) :=
  rel_ite (D.rel_bind (D.rel_newCallable (.closure c)) fun _ => D.rel_pure _) (D.rel_pure _)

theorem rel_quotation (a : Args) : D.Rel i (Kernel.quotation a) (Kernel.quotation a) :=
  rel_require fun form _ _ => D.rel_pure form

theorem rel_makeFunction (form name : String) (bindsSelf : Bool) {a : Args}
    (ha : D.KeepsAlike i a.bodyAfterParameters) :
    D.Rel i (Kernel.makeFunction form name bindsSelf a) (Kernel.makeFunction form name bindsSelf a) := by
  refine rel_require fun parameters b hb => ?_
  cases parameters with
  | vector parameters =>
    have hbody (hok : (Closure.arityOf parameters).isOk = true) : D.KeepsAlike i b.items := by
      have hi := items_of_next? hb
      simpa only [Args.bodyAfterParameters, hi, hok, if_true] using ha
    exact D.rel_bind (rel_make name bindsSelf parameters hbody) fun c => D.rel_newCallable (.closure c)
  | _ => exact D.rel_fail rfl

theorem rel_function {a : Args} (ha : D.KeepsAlike i a.functionBody) :
    D.Rel i (Kernel.function a) (Kernel.function a) := by
  unfold Kernel.function
  split
  · next name rest hn =>
    simp only [Args.functionBody, hn] at ha
    exact rel_makeFunction "fn" name true ha
  · next hn =>
    unfold Args.functionBody at ha
    split at ha
    · next name rest h => exact absurd h (hn name rest)
    · exact rel_makeFunction "fn" "fn" false ha

theorem mem_of_withoutDocumentation {a : Args} {v : Value}
    (hv : v ∈ (Kernel.withoutDocumentation a).items) : v ∈ a.items := by
  unfold Kernel.withoutDocumentation at hv
  split at hv
  · next hi =>
    rw [hi]
    exact List.mem_cons_of_mem _ hv
  · exact hv

def Defines (D : Simulation) (i : D.Place) (a : Args) : Prop :=
  ∀ name b v, a.next? = some (.symbol name, b) →
    D.Rel i (Eval.modify (Change.define name v).apply) (Eval.modify (Change.define name v).apply)

theorem Tables.defines (hg : D.Tables) (a : Args) : D.Defines i a := fun _ _ _ _ => hg.change _

theorem rel_definedName {form : Value} {f f' : String → Eval Value}
    (hf : ∀ name, form = .symbol name → D.Rel i (f name) (f' name)) :
    D.Rel i (Kernel.definedName form >>= f) (Kernel.definedName form >>= f') := by
  unfold Kernel.definedName
  split
  · next name => exact hf name rfl
  · exact D.rel_fail (e := .nameNotSymbol form) rfl

theorem rel_functionDefinition {a : Args} (ha : D.KeepsAlike i a.definitionBody) (hd : D.Defines i a) :
    D.Rel i (Kernel.functionDefinition a) (Kernel.functionDefinition a) := by
  refine rel_require fun form b hb => ?_
  refine rel_definedName fun name hn => ?_
  subst hn
  simp only [Args.definitionBody, hb] at ha
  refine D.rel_bind (rel_makeFunction "defn" name false ha) fun f => ?_
  exact D.rel_bind (hd name b f hb) fun _ => D.rel_pure _

theorem rel_namespaceChange (a : Args) :
    D.Rel i (Kernel.namespaceChange a) (Kernel.namespaceChange a) := by
  refine rel_require fun form _ _ => ?_
  dsimp only
  split
  · exact D.rel_bind (D.rel_change (c := .enter _) rfl) fun _ => D.rel_pure _
  · exact D.rel_fail rfl

theorem rel_requirementSpec (v : Value) :
    D.Rel i (Kernel.requirementSpec v) (Kernel.requirementSpec v) := by
  unfold Kernel.requirementSpec
  split
  · exact D.rel_pure _
  · exact rel_ite (D.rel_pure _) (D.rel_fail rfl)
  · exact D.rel_fail rfl

theorem rel_requireModule (hg : D.Tables) (v : Value) :
    D.Rel i (Kernel.requireModule v) (Kernel.requireModule v) := by
  refine D.rel_bind (rel_requirementSpec v) fun spec => ?_
  have hd : DependsOn (D.Agrees i) fun w => w.namespaces.hasModule spec.1 := fun w fs _ => rfl
  refine D.rel_bind (hg.look hd fun _ _ _ _ => rfl) fun known => ?_
  exact rel_ite (hg.change (.load spec.1 spec.2)) (D.rel_fail rfl)

theorem rel_delay {a : Args} (ha : D.KeepsAlike i a.items) : D.Rel i (Kernel.delay a) (Kernel.delay a) :=
  D.rel_bind (rel_make _ false [] fun _ => ha) fun c => D.rel_newCell (.closure c)

namespace Follows

theorem rel_nextElement (hk : D.Follows D.inner k k') (left : Value) :
    D.Rel i (k.nextElement left) (k'.nextElement left) := by
  refine D.rel_bind (hk.rel_uncons hk.fuel left) fun next => ?_
  cases next <;> exact D.rel_pure _

mutual

theorem open_destructure (hk : D.Follows D.inner k k') : ∀ pattern v : Value,
    D.Open i (k.destructure pattern v) (k'.destructure pattern v)
  | .atom (.symbol name), v => D.open_bindName name v
  | .vector patterns, v => by
    unfold Kernel.destructure
    split
    · exact hk.open_destructureItems v v patterns
    · exact open_fail rfl
  | .atom .nil, _ | .atom (.bool _), _ | .atom (.int _), _ | .atom (.str _), _
  | .atom (.char _), _ | .atom (.keyword _), _ | .list _, _ | .map _, _ | .cons _ _, _
  | .lazy _, _ | .callable _ _, _ => open_fail rfl

theorem open_destructureItems (hk : D.Follows D.inner k k') (whole left : Value) :
    ∀ patterns : List Value,
    D.Open i (k.destructureItems whole left patterns) (k'.destructureItems whole left patterns)
  | [] => open_pure ()
  | [pattern] => by
    unfold Kernel.destructureItems
    split
    · exact open_fail rfl
    · exact D.open_bind (D.open_rel (hk.rel_nextElement left)) fun next =>
        hk.open_destructure pattern next.1
  | pattern :: target :: rest => by
    unfold Kernel.destructureItems
    split
    · refine D.open_bind (D.open_rel (hk.rel_elements left)) fun taken => ?_
      exact D.open_bind (hk.open_destructure target (.vector taken)) fun _ =>
        hk.open_destructureItems whole .nil rest
    · exact D.open_bind (hk.open_destructure target whole) fun _ =>
        hk.open_destructureItems whole left rest
    · refine D.open_bind (D.open_rel (hk.rel_nextElement left)) fun next => ?_
      exact D.open_bind (hk.open_destructure pattern next.1) fun _ =>
        hk.open_destructureItems whole next.2 (target :: rest)

end

theorem open_callBody (h : D.Follows i k k') (hk : D.Follows D.inner k k') {c : Closure Value}
    (hb : ∀ v ∈ c.body, D.Shows i v) (vs : List Value) :
    D.Open i (k.callBody c vs) (k'.callBody c vs) := by
  refine D.open_bind (hk.open_destructure (.vector c.parameters) (.vector vs)) fun _ => ?_
  exact D.open_rel (h.rel_evalRest (.inr hb))

theorem rel_callOver (hk : D.Follows D.inner k k') (c : Closure Value) (kept : Scope) {a : Args}
    (hv : D.Rel i (k.values a) (k'.values a)) :
    D.Rel i (k.callOver c kept a) (k'.callOver c kept a) := by
  refine D.rel_bind hv fun vs => ?_
  refine D.rel_bind (rel_requireArity c.name c.arity vs.length) fun _ => ?_
  refine D.rel_bind (rel_scopeOver c kept) fun scope => ?_
  exact D.rel_withFrame scope (hk.open_callBody hk (fun v _ => shows_inner v) vs)

section

variable (h : D.Follows i k k')
include h

theorem rel_conditional {a : Args} (ha : D.Admits i a) :
    D.Rel i (k.conditional a) (k'.conditional a) := by
  refine h.rel_requireValue ha fun test b hb => ?_
  refine rel_require fun yes c hc => ?_
  refine rel_ite (h.rel_evaluate (hb.head hc)) ?_
  split
  · next no d hd => exact h.rel_evaluate ((hb.next hc).head hd)
  · exact D.rel_pure _

theorem rel_guarded {a : Args} (ha : D.Admits i a) : D.Rel i (k.guarded a) (k'.guarded a) := by
  refine h.rel_requireValue ha fun test b hb => ?_
  exact rel_ite (h.rel_evalRest hb) (D.rel_pure _)

theorem rel_definition {a : Args} (ha : D.Admits i a) (hd : D.Defines i a) :
    D.Rel i (k.definition a) (k'.definition a) := by
  refine rel_require fun form b hb => ?_
  refine rel_definedName fun name hn => ?_
  subst hn
  refine h.rel_requireValue (ha.next hb) fun v _ _ => ?_
  exact D.rel_bind (hd name b v hb) fun _ => D.rel_pure _

theorem rel_assertion {a : Args} (ha : D.Admits i a) :
    D.Rel i (k.assertion a) (k'.assertion a) := by
  refine rel_require fun form b hb => ?_
  refine D.rel_bind (h.rel_evaluate (ha.head hb)) fun v => ?_
  refine rel_ite (D.rel_pure _) ?_
  exact D.rel_bind (h.rel_nextValue (ha.next hb)) fun next => D.rel_fail rfl

theorem rel_requireEach (hg : D.Tables) {a : Args} {vs : List Value}
    (hv : D.Admits i { a with items := vs }) :
    D.Rel i (k.requireEach a vs) (k'.requireEach a vs) := by
  induction vs with
  | nil => exact D.rel_pure _
  | cons v vs ih =>
    obtain ⟨hh, ht⟩ := hv.cons
    refine D.rel_bind (h.rel_evaluate hh) fun spec => ?_
    exact D.rel_bind (rel_requireModule hg spec) fun _ => ih ht

theorem rel_upTo {a : Args} (stop : Value → Bool) {vs : List Value}
    (hv : D.Admits i { a with items := vs }) (last : Value) :
    D.Rel i (k.upTo a stop last vs) (k'.upTo a stop last vs) := by
  induction vs generalizing last with
  | nil => exact D.rel_pure _
  | cons v vs ih =>
    obtain ⟨hh, ht⟩ := hv.cons
    refine D.rel_bind (h.rel_evaluate hh) fun r => ?_
    exact rel_ite (D.rel_pure r) (ih ht r)

variable (hk : D.Follows D.inner k k')
include hk

theorem open_bindInTurn {a : Args} {vs : List Value} (hv : D.Admits i { a with items := vs }) :
    D.Open i (k.bindInTurn a vs) (k'.bindInTurn a vs) := by
  fun_induction Kernel.bindInTurn k a vs with
  | case1 pattern form rest ih =>
    obtain ⟨hf, hr⟩ := hv.cons.2.cons
    refine D.open_bind (D.open_rel (h.rel_evaluate hf)) fun v => ?_
    exact D.open_bind (hk.open_destructure pattern v) fun _ => ih hr
  | case2 vs hvs =>
    match vs, hvs with
    | [], _ => exact open_pure ()
    | [_], _ => exact open_pure ()
    | pattern :: form :: rest, hvs => exact absurd rfl (hvs pattern form rest)

theorem rel_localBinding {a : Args} (ha : D.Admits i a) :
    D.Rel i (k.localBinding a) (k'.localBinding a) := by
  refine rel_require fun form b hb => ?_
  cases form with
  | vector bindings =>
    have hv : D.Admits i { b with items := bindings } := (ha.head hb).imp id fun hv x hx => hv.of_vector hx
    refine rel_ite (D.rel_withScope ?_) (D.rel_fail rfl)
    exact D.open_bind (h.open_bindInTurn hk hv) fun _ => D.open_rel (h.rel_evalRest (ha.next hb))
  | _ => exact D.rel_fail rfl

theorem rel_compareEach {a : Args} (wanted : Bool) (first : Value) {vs : List Value}
    (hv : D.Admits i { a with items := vs }) :
    D.Rel i (k.compareEach a wanted first vs) (k'.compareEach a wanted first vs) := by
  induction vs with
  | nil => exact D.rel_pure _
  | cons v vs ih =>
    obtain ⟨hh, ht⟩ := hv.cons
    refine D.rel_bind (h.rel_evaluate hh) fun other => ?_
    refine D.rel_bind (hk.rel_isEqual first other) fun same => ?_
    exact rel_ite (ih ht) (D.rel_pure _)

theorem rel_comparison (name : String) (wanted : Bool) {a : Args} (ha : D.Admits i a) :
    D.Rel i (k.comparison name wanted a) (k'.comparison name wanted a) := by
  refine h.rel_requireValue ha fun first b hb => ?_
  exact rel_require fun _ _ _ => h.rel_compareEach hk wanted first hb

end

end Follows

end Simulation

/-- Calls that look at the frame in which they are made, whatever symbols stand in the call: loading a
file, and making a closure or a lazy sequence of forms that come as values. -/
def Callable.readsFrame : Callable Value → Args → Bool
  | .primitive .loadFile, _ => true
  | .special .function, a | .special .functionDefinition, a | .special .delay, a => a.evaluated
  | _, _ => false

def Callable.writesNames : Callable Value → Bool
  | .special .definition | .special .functionDefinition | .special .requirement => true
  | _ => false

namespace Simulation

variable {D : Simulation} {k k' : Kernel} {i : D.Place}

theorem Admits.shows {a : Args} (ha : D.Admits i a) (hr : a.evaluated = true → ∀ x, D.Sees i x) :
    ∀ v ∈ a.items, D.Shows i v := by
  intro v hv
  rcases ha with ha | ha
  · exact fun x _ => hr ha x
  · exact ha v hv

theorem mem_of_mem_bodyAfterParameters {a : Args} {v : Value} (hv : v ∈ a.bodyAfterParameters) : v ∈ a.items := by
  unfold Args.bodyAfterParameters at hv
  split at hv
  · next hi =>
    rw [hi]
    split at hv
    · exact List.mem_cons_of_mem _ hv
    · cases hv
  · cases hv

theorem mem_of_mem_closesOver {f : Callable Value} {a : Args} {v : Value} (hv : v ∈ f.closesOver a) :
    v ∈ a.items ∧ (a.evaluated = true → f.readsFrame a = true) := by
  cases f with
  | special s =>
    cases s with
    | function =>
      refine ⟨?_, id⟩
      change v ∈ a.functionBody at hv
      unfold Args.functionBody at hv
      split at hv
      · next hn => exact (mem_of_next? hn).2.2 v (mem_of_mem_bodyAfterParameters hv)
      · exact mem_of_mem_bodyAfterParameters hv
    | functionDefinition =>
      refine ⟨?_, id⟩
      change v ∈ a.definitionBody at hv
      unfold Args.definitionBody at hv
      split at hv
      · next hn =>
        exact (mem_of_next? hn).2.2 v (mem_of_withoutDocumentation (mem_of_mem_bodyAfterParameters hv))
      · cases hv
    | delay => exact ⟨hv, id⟩
    | _ => cases hv
  | _ => cases hv

theorem Admits.keepsAlike (hs : ∀ x, D.Sees i x → D.Agrees i x) {f : Callable Value} {a : Args}
    (ha : D.Admits i a) (hr : f.readsFrame a = true → ∀ x, D.Sees i x) : D.KeepsAlike i (f.closesOver a) := by
  intro x hx
  obtain ⟨v, hv, hx⟩ := Value.mem_itemSymbols.mp hx
  obtain ⟨hi, he⟩ := mem_of_mem_closesOver hv
  exact hs x (ha.shows (fun ht => hr (he ht)) v hi x hx)

namespace Follows

variable (h : D.Follows i k k') (hk : D.Follows D.inner k k')
include h hk

theorem rel_callSpecial {s : SpecialForm} {a : Args} (ha : D.Admits i a)
    (hc : D.KeepsAlike i ((Callable.special s).closesOver a))
    (hg : (Callable.special s).writesNames = true → D.Tables) :
    D.Rel i (k.callSpecial s a) (k'.callSpecial s a) := by
  cases s with
  | conditional => exact h.rel_conditional ha
  | guarded => exact h.rel_guarded ha
  | quotation => exact rel_quotation a
  | definition => exact h.rel_definition ha ((hg rfl).defines a)
  | sequence => exact h.rel_evalRest ha
  | binding => exact h.rel_localBinding hk ha
  | function => exact rel_function hc
  | functionDefinition => exact rel_functionDefinition hc ((hg rfl).defines a)
  | assertion => exact h.rel_assertion ha
  | comment => exact D.rel_pure _
  | namespaceChange => exact rel_namespaceChange a
  | requirement => exact h.rel_requireEach (hg rfl) ha
  | equal => exact h.rel_comparison hk _ true ha
  | notEqual => exact h.rel_comparison hk _ false ha
  | conjunction => exact h.rel_upTo _ ha _
  | disjunction => exact h.rel_upTo _ ha _
  | delay => exact rel_delay hc

theorem rel_call {f : Callable Value} {a : Args} (ha : D.Admits i a)
    (hl : f = .primitive .loadFile → ∀ x, D.Sees i x) (hc : D.KeepsAlike i (f.closesOver a))
    (hg : f.writesNames = true → D.Tables) : D.Rel i (k.call f a) (k'.call f a) := by
  cases f with
  | special s => exact h.rel_callSpecial hk ha hc hg
  | primitive p => exact h.rel_callPrimitive hk (fun hp => hl (by rw [hp])) ha
  | closure c => exact hk.rel_callOver c c.captured (h.rel_values ha)
  | iterating f x => exact h.rel_iterateStep f x
  | repeating x remaining => exact rel_repeatStep x remaining
  | calling f remaining => exact h.rel_callStep f remaining
  | recorder log result =>
    refine D.rel_bind (h.rel_values ha) fun args => ?_
    exact D.rel_bind (D.rel_change (c := .record log args) rfl) fun _ => D.rel_pure result

theorem rel_evalEntries {es : List (Value × Value)}
    (he : ∀ e ∈ es, D.Shows i e.1 ∧ D.Shows i e.2) (done : List (Value × Value)) :
    D.Rel i (k.evalEntries done es) (k'.evalEntries done es) := by
  induction es generalizing done with
  | nil => exact D.rel_pure done
  | cons e es ih =>
    obtain ⟨hkey, hvalue⟩ := he e (by simp)
    refine D.rel_bind (h.eval e.1 hkey) fun key => ?_
    refine D.rel_bind (h.eval e.2 hvalue) fun value => ?_
    refine D.rel_bind (hk.rel_putEntry done key value) fun done => ?_
    exact ih (fun d hd => he d (List.mem_cons_of_mem e hd)) done

theorem rel_evalForm {v : Value} (hv : D.Shows i v) (hs : ∀ name, v ≠ .symbol name) :
    D.Rel i (k.evalForm v) (k'.evalForm v) := by
  unfold Kernel.evalForm
  split
  · next name => exact absurd rfl (hs name)
  · next forms =>
    exact D.rel_bind (h.rel_evalEach (.inr fun x hx => hv.of_vector hx)) fun vs => D.rel_pure _
  · next entries =>
    exact D.rel_bind (h.rel_evalEntries hk (fun e he => hv.of_map he) []) fun es => D.rel_pure _
  · next head args =>
    refine D.rel_bind (h.eval head (hv.of_list (by simp))) fun f => ?_
    have ha : D.Admits i (.ofForms args) := .inr fun x hx => hv.of_list (List.mem_cons_of_mem head hx)
    cases f with
    | callable j f => exact h.invoke f _ ha
    | _ => exact D.rel_fail rfl
  · exact D.rel_pure _

end Follows

end Simulation

def Eval.haltIf {α : Type} (stop : World → Bool) (m : Eval α) : Eval α := fun w =>
  if stop w then .outOfFuel else m w

theorem Eval.haltIf_never {α : Type} (m : Eval α) : m.haltIf (fun _ => false) = m := rfl

theorem Eval.haltIf_always {α : Type} (m : Eval α) : m.haltIf (fun _ => true) = Eval.outOfFuel := rfl

/-- The lookups and calls at which an evaluator is to halt. -/
structure Watch where
  lookup : String → World → Bool
  call : Callable Value → Args → World → Bool

def Watch.form (s : Watch) : Value → World → Bool
  | .symbol name => s.lookup name
  | _ => fun _ => false

def Watch.never : Watch := ⟨fun _ _ => false, fun _ _ _ => false⟩

theorem Watch.form_of_not_symbol (s : Watch) {v : Value} (hv : ∀ name, v ≠ .symbol name) :
    s.form v = fun _ => false := by
  unfold form
  split
  · next name => exact absurd rfl (hv name)
  · rfl

namespace Kernel

def watched (s : Watch) : Nat → Kernel
  | 0 => ⟨0, fun _ => .outOfFuel, fun _ _ => .outOfFuel⟩
  | n + 1 => ⟨n + 1, fun v => ((watched s n).evalForm v).haltIf (s.form v),
      fun f a => ((watched s n).call f a).haltIf (s.call f a)⟩

theorem fuel_watched (s : Watch) (n : Nat) : (watched s n).fuel = n := by
  cases n <;> rfl

/-- The evaluator to which some calls are barred: there it is stuck, as if it were out of fuel. -/
def barring (barred : Callable Value → Args → Bool) : Nat → Kernel
  | 0 => ⟨0, fun _ => .outOfFuel, fun _ _ => .outOfFuel⟩
  | n + 1 => ⟨n + 1, fun v => (barring barred n).evalForm v,
      fun f a => if barred f a then .outOfFuel else (barring barred n).call f a⟩

theorem withFuel_eq_barring (n : Nat) : withFuel n = barring (fun _ _ => false) n := by
  induction n with
  | zero => rfl
  | succ n ih =>
    simp only [withFuel, barring, ih]
    rfl

theorem barring_eq_watched (barred : Callable Value → Args → Bool) (n : Nat) :
    barring barred n = watched ⟨fun _ _ => false, fun f a _ => barred f a⟩ n := by
  induction n with
  | zero => rfl
  | succ n ih =>
    have hl (v : Value) : Watch.form ⟨fun _ _ => false, fun f a _ => barred f a⟩ v = fun _ => false := by
      unfold Watch.form
      split <;> rfl
    simp only [barring, watched, ih, hl, Eval.haltIf_never]
    congr
    funext f a
    cases hb : barred f a with
    | true => simp only [if_true, Eval.haltIf_always]
    | false => simp only [Bool.false_eq_true, if_false, Eval.haltIf_never]

theorem withFuel_eq_watched (n : Nat) : withFuel n = watched .never n := by
  rw [withFuel_eq_barring, barring_eq_watched]
  rfl

end Kernel

namespace Simulation

variable {D : Simulation} {i : D.Place}

theorem follows_watched (fits : D.Place → Prop) {s s' : Watch} (hf : fits D.inner)
    (hs : ∀ {i : D.Place} {name : String}, fits i → D.Sees i name →
      D.Rel i ((Eval.read (·.resolve name) >>= Eval.ofExcept).haltIf (s.lookup name))
        ((Eval.read (·.resolve name) >>= Eval.ofExcept).haltIf (s'.lookup name)))
    (hc : ∀ {i : D.Place} {m n : Nat} {f : Callable Value} {a : Args}, fits i → D.Budget m n →
      D.Follows i (Kernel.watched s m) (Kernel.watched s' n) →
      D.Follows D.inner (Kernel.watched s m) (Kernel.watched s' n) → D.Admits i a →
      D.Rel i (((Kernel.watched s m).call f a).haltIf (s.call f a))
        (((Kernel.watched s' n).call f a).haltIf (s'.call f a)))
    (hr : ∀ {m n : Nat}, D.Budget m n → D.Runs (Kernel.watched s m) (Kernel.watched s' n))
    {m n : Nat} (hn : D.Budget m n) (hi : fits i) :
    D.Follows i (Kernel.watched s m) (Kernel.watched s' n) := by
  induction m generalizing n i with
  | zero =>
    refine ⟨by simpa only [Kernel.fuel_watched] using hn, hr hn, fun v _ => ?_, fun f a _ => ?_⟩
    · exact hn.spent (m := fun n => (Kernel.watched s' n).eval v) rfl
    · exact hn.spent (m := fun n => (Kernel.watched s' n).invoke f a) rfl
  | succ m ih =>
    obtain ⟨n, rfl, hl⟩ := hn.succ
    have h := ih hl hi
    -- A call opens a frame of its own, so its body is run at the inner place whatever `i` is.
    have hk := ih hl hf
    refine ⟨by simpa only [Kernel.fuel_watched] using hn, hr hn, fun v hv => ?_, fun f a ha => ?_⟩
    · by_cases hv' : ∃ name, v = .symbol name
      · obtain ⟨name, rfl⟩ := hv'
        exact hs hi (hv name (by simp [Value.symbols]))
      · have hv' : ∀ name, v ≠ .symbol name := fun name he => hv' ⟨name, he⟩
        simp only [Kernel.watched, Watch.form_of_not_symbol _ hv', Eval.haltIf_never]
        exact h.rel_evalForm hk hv hv'
    · exact hc hi hl h hk ha

variable {barred barred' : Callable Value → Args → Bool}

theorem follows_barring (hg : D.Global) (hs : ∀ {i : D.Place} (x : String), D.Sees i x → D.Agrees i x)
    (hb : ∀ f a, barred f a = barred' f a ∨ D.Lax ∧ barred f a = true)
    (hr : ∀ {m n : Nat}, D.Budget m n → D.Runs (Kernel.barring barred m) (Kernel.barring barred' n))
    {m n : Nat} (hn : D.Budget m n) (hi : ∀ f a, f.readsFrame a = true → barred f a = true ∨ ∀ x, D.Sees i x) :
    D.Follows i (Kernel.barring barred m) (Kernel.barring barred' n) := by
  simp only [Kernel.barring_eq_watched] at hr ⊢
  refine follows_watched
    (fun i => ∀ f a, f.readsFrame a = true → barred f a = true ∨ ∀ x, D.Sees i x)
    (fun _ _ _ => .inr D.sees_inner) ?_ ?_ hr hn hi
  · intro i name _ hx
    exact hg.resolve hx
  intro i m n f a hi hn h hk ha
  dsimp only
  cases hf : barred f a with
  | true =>
    rcases hb f a with he | ⟨hl, _⟩
    · rw [← he, hf]
      exact D.rel_outOfFuel
    · exact D.rel_stuck hl
  | false =>
    have he : barred' f a = false := by
      rcases hb f a with he | ⟨_, he⟩
      · rw [← he, hf]
      · rw [hf] at he
        cases he
    rw [he]
    have hr (hr : f.readsFrame a = true) : ∀ x, D.Sees i x := by
      rcases hi f a hr with hb | hx
      · rw [hf] at hb
        cases hb
      · exact hx
    refine h.rel_call hk ha (fun hp => hr (by rw [hp]; rfl)) (ha.keepsAlike hs hr) fun _ => hg.toTables

end Simulation

end LazyLisp
