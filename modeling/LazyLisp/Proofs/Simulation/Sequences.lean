import LazyLisp.Kernel.Text
import LazyLisp.Proofs.Simulation

namespace LazyLisp

def Value.split? : Value → Option (Value × Value)
  | .list (x :: xs) => some (x, .list xs)
  | .vector (x :: xs) => some (x, .vector xs)
  | .map (e :: es) => some (.entry e, .map es)
  | .cons x rest => some (x, rest)
  | _ => none

namespace Kernel

theorem uncons_of_not_lazy (k : Kernel) (n : Nat) {v : Value} (hv : ∀ i, v ≠ .lazy i) :
    k.uncons n v = pure v.split? := by
  cases v with
  | list xs => cases xs <;> cases n <;> rfl
  | vector xs => cases xs <;> cases n <;> rfl
  | map es => cases es <;> cases n <;> rfl
  | lazy i => exact absurd rfl (hv i)
  | _ => cases n <;> rfl

theorem force_of_not_lazy (k : Kernel) (n : Nat) {v : Value} (hv : ∀ i, v ≠ .lazy i) :
    k.force n v = pure v := by
  cases v with
  | lazy i => exact absurd rfl (hv i)
  | _ => cases n <;> rfl

theorem uncons_eq_force (k : Kernel) (n : Nat) (v : Value) :
    k.uncons n v = k.force n v >>= fun s => pure s.split? := by
  induction n generalizing v with
  | zero =>
    by_cases hv : ∃ i, v = .lazy i
    · obtain ⟨i, rfl⟩ := hv
      rfl
    · have hn : ∀ i, v ≠ .lazy i := fun i h => hv ⟨i, h⟩
      rw [uncons_of_not_lazy k 0 hn, force_of_not_lazy k 0 hn, pure_bind]
  | succ n ih =>
    by_cases hv : ∃ i, v = .lazy i
    · obtain ⟨i, rfl⟩ := hv
      change (k.realize i >>= fun s => k.uncons n s) = (k.realize i >>= fun s => k.force n s) >>= _
      simp only [ih, bind_assoc]
    · have hn : ∀ i, v ≠ .lazy i := fun i h => hv ⟨i, h⟩
      rw [uncons_of_not_lazy k _ hn, force_of_not_lazy k _ hn, pure_bind]

end Kernel

end LazyLisp

namespace LazyLisp.Simulation.Follows

variable {D : Simulation} {k k' : Kernel} {i : D.Place} {β : Type}

section

variable (hk : D.Follows D.inner k k')
include hk

theorem rel_force {n n' : Nat} (hn : D.Budget n n') (v : Value) :
    D.Rel i (k.force n v) (k'.force n' v) :=
  D.rel_force v hn hk.runs fun f => hk.rel_apply f []

theorem rel_uncons {n n' : Nat} (hn : D.Budget n n') (v : Value) :
    D.Rel i (k.uncons n v) (k'.uncons n' v) := by
  rw [Kernel.uncons_eq_force, Kernel.uncons_eq_force]
  exact D.rel_bind (hk.rel_force hn v) fun s => D.rel_pure s.split?

theorem rel_foldSeq {f f' : β → Value → Eval β} (hf : ∀ b x, D.Rel i (f b x) (f' b x)) {n n' : Nat}
    (hn : D.Budget n n') (b : β) (v : Value) :
    D.Rel i (k.foldSeq f n b v) (k'.foldSeq f' n' b v) := by
  induction n generalizing n' b v with
  | zero => exact hn.spent (m := fun n => k'.foldSeq f' n b v) rfl
  | succ n ih =>
    obtain ⟨n', rfl, hl⟩ := hn.succ
    refine D.rel_bind (hk.rel_uncons hk.fuel v) fun next => ?_
    cases next with
    | none => exact D.rel_pure b
    | some next => exact D.rel_bind (hf b next.1) fun b => ih hl b next.2

theorem rel_elements (v : Value) : D.Rel i (k.elements v) (k'.elements v) :=
  D.rel_bind (hk.rel_foldSeq (fun _ _ => D.rel_pure _) hk.fuel [] v) fun _ => D.rel_pure _

theorem rel_firstElements (count : Nat) (reversed : List Value) (v : Value) :
    D.Rel i (k.firstElements count reversed v) (k'.firstElements count reversed v) := by
  induction count generalizing reversed v with
  | zero => exact D.rel_pure _
  | succ count ih =>
    refine D.rel_bind (hk.rel_uncons hk.fuel v) fun next => ?_
    cases next with
    | none => exact D.rel_pure _
    | some next => exact ih (next.1 :: reversed) next.2

theorem rel_collect (v : Value) : D.Rel i (k.collect v) (k'.collect v) :=
  D.rel_bind (rel_requireSeqable v) fun _ => hk.rel_elements v

theorem rel_equalElements {eq eq' : Value → Value → Eval Bool}
    (he : ∀ x y, D.Rel i (eq x y) (eq' x y)) {n n' : Nat} (hn : D.Budget n n') (a b : Value) :
    D.Rel i (k.equalElements eq n a b) (k'.equalElements eq' n' a b) := by
  induction n generalizing n' a b with
  | zero => exact hn.spent (m := fun n => k'.equalElements eq' n a b) rfl
  | succ n ih =>
    obtain ⟨n', rfl, hl⟩ := hn.succ
    refine D.rel_bind (hk.rel_uncons hk.fuel a) fun x => ?_
    refine D.rel_bind (hk.rel_uncons hk.fuel b) fun y => ?_
    cases x with
    | none => cases y <;> exact D.rel_pure _
    | some x =>
      cases y with
      | none => exact D.rel_pure _
      | some y =>
        refine D.rel_bind (he x.1 y.1) fun same => ?_
        exact rel_ite (ih hl x.2 y.2) (D.rel_pure false)

omit hk in
theorem rel_findEntry {same same' : Value → Eval Bool} (hs : ∀ x, D.Rel i (same x) (same' x))
    (es : List (Value × Value)) : D.Rel i (Kernel.findEntry same es) (Kernel.findEntry same' es) := by
  induction es with
  | nil => exact D.rel_pure none
  | cons e es ih => exact D.rel_bind (hs e.1) fun same => rel_ite (D.rel_pure _) ih

omit hk in
theorem rel_equalEntries {eq eq' : Value → Value → Eval Bool}
    (he : ∀ x y, D.Rel i (eq x y) (eq' x y)) (ys xs : List (Value × Value)) :
    D.Rel i (Kernel.equalEntries eq ys xs) (Kernel.equalEntries eq' ys xs) := by
  induction xs with
  | nil => exact D.rel_pure true
  | cons x xs ih =>
    refine D.rel_bind (rel_findEntry (fun y => D.rel_orFalse (he y x.1)) ys) fun found => ?_
    cases found with
    | none => exact D.rel_pure false
    | some y => exact D.rel_bind (he x.2 y) fun same => rel_ite ih (D.rel_pure false)

theorem rel_equal {n n' : Nat} (hn : D.Budget n n') (a b : Value) :
    D.Rel i (k.equal n a b) (k'.equal n' a b) := by
  induction n generalizing n' a b with
  | zero => exact hn.spent (m := fun n => k'.equal n a b) rfl
  | succ n ih =>
    obtain ⟨n', rfl, hl⟩ := hn.succ
    refine rel_ite (hk.rel_equalElements (fun x y => ih hl x y) hk.fuel a b) ?_
    split
    · exact D.rel_pure _
    · exact rel_ite (rel_equalEntries (fun x y => ih hl x y) _ _) (D.rel_pure false)
    · exact D.rel_pure _
    · exact D.rel_pure _

theorem rel_isEqual (a b : Value) : D.Rel i (k.isEqual a b) (k'.isEqual a b) :=
  hk.rel_equal hk.fuel a b

theorem rel_isSame (a b : Value) : D.Rel i (k.isSame a b) (k'.isSame a b) :=
  D.rel_orFalse (hk.rel_isEqual a b)

theorem rel_getEntry (es : List (Value × Value)) (key : Value) :
    D.Rel i (k.getEntry es key) (k'.getEntry es key) :=
  rel_findEntry (fun x => hk.rel_isSame x key) es

theorem rel_putEntry (es : List (Value × Value)) (key value : Value) :
    D.Rel i (k.putEntry es key value) (k'.putEntry es key value) := by
  induction es with
  | nil => exact D.rel_pure _
  | cons e es ih =>
    refine D.rel_bind (hk.rel_isSame e.1 key) fun same => ?_
    exact rel_ite (D.rel_pure _) (D.rel_bind ih fun rest => D.rel_pure _)

theorem rel_putPairs (es : List (Value × Value)) (vs : List Value) :
    D.Rel i (k.putPairs es vs) (k'.putPairs es vs) := by
  fun_induction Kernel.putPairs k es vs with
  | case1 es key value rest ih => exact D.rel_bind (hk.rel_putEntry es key value) fun es => ih es
  | case2 vs es hvs =>
    match vs, hvs with
    | [], _ => exact D.rel_pure es
    | [_], _ => exact D.rel_pure es
    | key :: value :: rest, hvs => exact absurd rfl (hvs key value rest)

omit hk in
theorem rel_textsOf {write write' : Value → Eval (List Char)}
    (hw : ∀ v, D.Rel i (write v) (write' v)) (vs : List Value) :
    D.Rel i (Kernel.textsOf write vs) (Kernel.textsOf write' vs) := by
  induction vs with
  | nil => exact D.rel_pure []
  | cons v vs ih => exact D.rel_bind (hw v) fun text => D.rel_bind ih fun texts => D.rel_pure _

omit hk in
theorem rel_entryTextsOf {write write' : Value → Eval (List Char)}
    (hw : ∀ v, D.Rel i (write v) (write' v)) (es : List (Value × Value)) :
    D.Rel i (Kernel.entryTextsOf write es) (Kernel.entryTextsOf write' es) := by
  induction es with
  | nil => exact D.rel_pure []
  | cons e es ih =>
    exact D.rel_bind (hw e.1) fun keyText => D.rel_bind (hw e.2) fun valueText =>
      D.rel_bind ih fun texts => D.rel_pure _

omit hk in
theorem rel_describe {write write' : Value → Eval String} (hw : ∀ v, D.Rel i (write v) (write' v))
    (e : Failure) : D.Rel i (e.describe write) (e.describe write') := by
  cases e with
  | assertionFailed form message? =>
    cases message? with
    | none => exact D.rel_bind (hw form) fun _ => D.rel_pure _
    | some message =>
      exact D.rel_bind (hw form) fun _ => D.rel_bind (hw message) fun _ => D.rel_pure _
  | notCallable form => exact D.rel_bind (hw form) fun _ => D.rel_pure _
  | nameNotSymbol form => exact D.rel_bind (hw form) fun _ => D.rel_pure _
  | bindingsNotVector form => exact D.rel_bind (hw form) fun _ => D.rel_pure _
  | parametersNotVector form => exact D.rel_bind (hw form) fun _ => D.rel_pure _
  | notDestructurable form => exact D.rel_bind (hw form) fun _ => D.rel_pure _
  | unexpectedPattern form => exact D.rel_bind (hw form) fun _ => D.rel_pure _
  | badRequirement form => exact D.rel_bind (hw form) fun _ => D.rel_pure _
  | _ => exact D.rel_pure _

theorem rel_sequenceText {write write' : Value → Eval (List Char)} {describe describe' : Failure → Eval String}
    (hw : ∀ v, D.Rel i (write v) (write' v)) (hd : ∀ e, D.Rel i (describe e) (describe' e)) (v : Value) :
    D.Rel i (k.sequenceText write describe v) (k'.sequenceText write' describe' v) := by
  refine D.rel_bind (D.rel_attempt (hk.rel_collect v)) fun result => ?_
  cases result with
  | ok xs => exact D.rel_bind (rel_textsOf hw xs) fun texts => D.rel_pure _
  | error e => exact D.rel_bind (hd e) fun message => D.rel_pure _

theorem rel_write {n n' : Nat} (hn : D.Budget n n') (style : Style) (v : Value) :
    D.Rel i (k.write n style v) (k'.write n' style v) := by
  induction n generalizing n' style v with
  | zero => exact hn.spent (m := fun n => k'.write n style v) rfl
  | succ n ih =>
    obtain ⟨n', rfl, hl⟩ := hn.succ
    have hd (e : Failure) := rel_describe (D := D) (i := i)
      (fun v => D.rel_bind (ih hl .readable v) fun text => D.rel_pure (String.ofList text)) e
    have hs (v : Value) := hk.rel_sequenceText (fun v => ih hl style v) hd v
    cases v with
    | atom a => exact D.rel_pure _
    | callable j f => exact D.rel_pure _
    | map es => exact D.rel_bind (rel_entryTextsOf (fun v => ih hl style v) es) fun _ => D.rel_pure _
    | vector xs => exact D.rel_bind (hs _) fun _ => D.rel_pure _
    | list xs => exact D.rel_bind (hs _) fun _ => D.rel_pure _
    | cons x rest => exact D.rel_bind (hs _) fun _ => D.rel_pure _
    | lazy cell => exact D.rel_bind (hs _) fun _ => D.rel_pure _

theorem rel_renderAll (style : Style) (separator : String) (vs : List Value) :
    D.Rel i (k.renderAll style separator vs) (k'.renderAll style separator vs) :=
  D.rel_bind (rel_textsOf (fun v => hk.rel_write hk.fuel style v) vs) fun _ => D.rel_pure _

end

end LazyLisp.Simulation.Follows
