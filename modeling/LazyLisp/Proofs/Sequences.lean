import LazyLisp.Proofs.Equality
import LazyLisp.Proofs.Forcing

namespace LazyLisp

variable {α β : Type}

namespace Eventually

variable {m m' : Nat → Outcome α} {r : Outcome α}

theorem congr {n : Nat} (h : ∀ l, n ≤ l → m l = m' l) (hm : Eventually m r) : Eventually m' r := by
  obtain ⟨hr, a, ha⟩ := hm
  exact ⟨hr, max n a, fun l hl => by rw [← h l (by omega), ha l (by omega)]⟩

theorem congr_iff {n : Nat} (h : ∀ l, n ≤ l → m l = m' l) : Eventually m r ↔ Eventually m' r :=
  ⟨congr h, congr fun l hl => (h l hl).symm⟩

theorem shift_iff : Eventually (fun l => m (l + 1)) r ↔ Eventually m r := by
  constructor
  · rintro ⟨hr, n, hn⟩
    refine ⟨hr, n + 1, fun l hl => ?_⟩
    obtain ⟨l, rfl⟩ : ∃ j, l = j + 1 := ⟨l - 1, by omega⟩
    exact hn l (by omega)
  · rintro ⟨hr, n, hn⟩
    exact ⟨hr, n, fun l hl => hn (l + 1) (by omega)⟩

theorem bind_iff {m : Nat → Eval α} {f : Nat → α → Eval β} {w u : World} {a : α} {r : Outcome β}
    (hm : Eventually (fun l => m l w) (.value a u)) :
    Eventually (fun l => (m l >>= f l) w) r ↔ Eventually (fun l => f l a u) r := by
  obtain ⟨-, n, hn⟩ := hm
  refine congr_iff (n := n) fun l hl => ?_
  rw [Eval.bind_of_value (hn l hl)]

theorem of_forall {n : Nat} {a : α} {w : World} (h : ∀ l, n ≤ l → m l = .value a w) :
    Eventually m (.value a w) := ⟨nofun, n, h⟩

theorem of_value (hm : ∀ l l', l ≤ l' → m l = .outOfFuel ∨ m l = m l') {n : Nat} {a : α} {w : World}
    (h : m n = .value a w) : Eventually m (.value a w) :=
  h ▸ of_ne hm (by rw [h]; exact nofun)

theorem pure (a : α) (w : World) : Eventually (fun _ => (Pure.pure a : Eval α) w) (.value a w) :=
  of_forall fun _ (_ : 0 ≤ _) => rfl

end Eventually

def Calls (w : World) (f : Callable Value) (args : List Value) (r : Outcome Value) : Prop :=
  Eventually (fun l => (Kernel.withFuel l).apply f args w) r

theorem Kernel.apply_primitive {p : Primitive} {args : List Value} (ha : p.arity.accepts args.length = true)
    (n : Nat) : (withFuel (n + 1)).apply (.primitive p) args = (withFuel n).runPrimitive p args := by
  change (withFuel n).callPrimitive p (.ofValues args) = _
  rw [callPrimitive, values_ofValues, pure_bind, Eval.requireArity, if_pos ha, pure_bind]

theorem calls_primitive_iff {p : Primitive} {args : List Value}
    (ha : p.arity.accepts args.length = true) {w : World} {r : Outcome Value} :
    Calls w (.primitive p) args r ↔
      Eventually (fun l => (Kernel.withFuel l).runPrimitive p args w) r := by
  rw [Calls, ← Eventually.shift_iff]
  simp only [Kernel.apply_primitive ha]

inductive Opened (w : World) : Value → Value → Prop
  | plain {v : Value} : (∀ i, v ≠ .lazy i) → Opened w v v
  | lazy {i : Nat} {s t : Value} : w.cellValue? i = some s → Opened w s t → Opened w (.lazy i) t

namespace Opened

variable {w w' : World} {v s : Value}

theorem mono {es : List CellEvent} (h : Opened w v s) (hc : Course w es w') : Opened w' v s := by
  induction h with
  | plain hv => exact .plain hv
  | lazy hs _ ih => exact .lazy (hc.cellValue hs) ih

theorem atHand (h : Opened w v s) : AtHand w v s.split? := by
  induction h with
  | plain hv => exact .plain hv
  | lazy hs _ ih => exact .lazy hs ih

theorem forces (h : Opened w v s) : Forces w v (.value s w) := by
  induction h with
  | plain hv => exact .of_not_lazy hv w
  | lazy hs _ ih => exact (Forces.lazy_iff (realizes_of_cellValue? hs)).mpr ih

end Opened

namespace Kernel

variable {n m : Nat} {w u : World} {v s : Value}

theorem course_of_force (h : (withFuel n).force m v w = .value s u) : ∃ es, Course w es u :=
  ((evolution_passes.follows n).rel_force (i := ()) (.inl rfl) v w u (by rw [h]; rfl)).2

theorem course_of_apply {f : Callable Value} {args : List Value}
    (h : (withFuel n).apply f args w = .value s u) : ∃ es, Course w es u :=
  ((evolution_passes.follows n).rel_apply f args w u (by rw [h]; rfl)).2

theorem opened_of_force (h : (withFuel n).force m v w = .value s u) : Opened u v s := by
  induction m generalizing v w with
  | zero =>
    cases v with
    | lazy i => cases h
    | _ =>
      cases h
      exact .plain nofun
  | succ m ih =>
    cases v with
    | lazy i =>
      rw [force, Eval.bind_eq_value_iff] at h
      obtain ⟨t, u', hr, hf⟩ := h
      obtain ⟨es, hc⟩ := course_of_force hf
      exact .lazy (hc.cellValue (realize_eq_value hr).1) (ih hf)
    | _ =>
      cases h
      exact .plain nofun

end Kernel

theorem AtHand.steps {w : World} {v : Value} {p : Option (Value × Value)} (h : AtHand w v p) :
    Steps w v (.value p w) := by
  obtain ⟨n, hn⟩ := h.uncons
  exact .of_forall fun l hl => hn (Kernel.withFuel l) l hl

theorem Steps.eventually_uncons {w : World} {v : Value} {r : Outcome (Option (Value × Value))}
    (h : Steps w v r) :
    Eventually (fun l => (Kernel.withFuel l).uncons (Kernel.withFuel l).fuel v w) r := by
  simp only [Kernel.fuel_withFuel]
  exact h

namespace Forces

variable {w u u' : World} {v s : Value} {es : List CellEvent}

theorem of_force {n : Nat} (h : (Kernel.withFuel n).force n v w = .value s u) :
    Forces w v (.value s u) :=
  Eventually.of_value (fun _ _ hl => Kernel.below_force hl hl v w) h

theorem of_lazy {i : Nat} (h : Forces w (.lazy i) (.value s u)) :
    ∃ s' u', Realizes w i (.value s' u') ∧ Forces u' s' (.value s u) := by
  obtain ⟨n, hn⟩ := h.exists_fuel
  have hf : (Kernel.withFuel (n + 1)).force (n + 1) (.lazy i) w = .value s u := hn (n + 1) (Nat.le_succ n)
  rw [Kernel.force, Eval.bind_eq_value_iff] at hf
  obtain ⟨s', u', hr, -⟩ := hf
  have hr : Realizes w i (.value s' u') := Eventually.of_value (fun _ _ hl => Kernel.below_realize hl i w) hr
  exact ⟨s', u', hr, (Forces.lazy_iff hr).mp h⟩

theorem course (h : Forces w v (.value s u)) : ∃ es, Course w es u := by
  obtain ⟨n, hn⟩ := h.exists_fuel
  exact Kernel.course_of_force (hn n (Nat.le_refl n))

theorem again (h : Forces w v (.value s u)) (hc : Course u es u') : Forces u' v (.value s u') := by
  obtain ⟨n, hn⟩ := h.exists_fuel
  exact ((Kernel.opened_of_force (hn n (Nat.le_refl n))).mono hc).forces

theorem atHand (h : Forces w v (.value s u)) : AtHand u v s.split? := by
  obtain ⟨n, hn⟩ := h.exists_fuel
  exact (Kernel.opened_of_force (hn n (Nat.le_refl n))).atHand

theorem eq_of_atHand {r : Option (Value × Value)} (h : Forces w v (.value s u)) (ha : AtHand w v r) :
    s.split? = r ∧ u = w := by
  cases h.steps_value.unique ha.steps
  exact ⟨rfl, rfl⟩

theorem eventually_uncons (h : Forces w v (.value s u)) :
    Eventually (fun l => (Kernel.withFuel l).uncons (Kernel.withFuel l).fuel v w) (.value s.split? u) :=
  h.steps_value.eventually_uncons

theorem force_iff {f : Nat → Value → Eval β} {r : Outcome β} (h : Forces w v (.value s u)) :
    Eventually (fun l => ((Kernel.withFuel l).force (Kernel.withFuel l).fuel v >>= f l) w) r ↔
      Eventually (fun l => f l s u) r := by
  simp only [Kernel.fuel_withFuel]
  exact Eventually.bind_iff h

theorem uncons_iff {f : Nat → Option (Value × Value) → Eval β} {r : Outcome β}
    (h : Forces w v (.value s u)) :
    Eventually (fun l => ((Kernel.withFuel l).uncons (Kernel.withFuel l).fuel v >>= f l) w) r ↔
      Eventually (fun l => f l s.split? u) r :=
  Eventually.bind_iff h.eventually_uncons

end Forces

/-- Going through a value gives these elements, ends with an empty value of a kind that has elements, and
leaves the second world. -/
inductive Yields : World → Value → List Value → World → Prop
  | done {w u : World} {v s : Value} : Forces w v (.value s u) → s.isSeqable = true → s.split? = none →
      Yields w v [] u
  | next {w u w' : World} {v s x rest : Value} {xs : List Value} : Forces w v (.value s u) →
      s.split? = some (x, rest) → Yields u rest xs w' → Yields w v (x :: xs) w'

namespace Value

theorem isSeqable_of_split? {s : Value} {p : Value × Value} (h : s.split? = some p) :
    s.isSeqable = true := by
  unfold split? at h
  split at h
  case h_5 => cases h
  all_goals rfl

end Value

namespace Yields

variable {w u w' : World} {v s : Value} {xs : List Value}

theorem list (w : World) (xs : List Value) : Yields w (.list xs) xs w := by
  induction xs with
  | nil => exact .done (.of_not_lazy (v := .list []) nofun w) rfl rfl
  | cons x xs ih => exact .next (.of_not_lazy (v := .list (x :: xs)) nofun w) rfl ih

theorem consCell (h : Yields w v xs w') (x : Value) : Yields w (.cons x v) (x :: xs) w' :=
  .next (.of_not_lazy (v := .cons x v) nofun w) rfl h

theorem of_consCell {x : Value} (h : Yields w (.cons x v) xs w') :
    ∃ ys, xs = x :: ys ∧ Yields w v ys w' := by
  have hf := Forces.of_not_lazy (v := .cons x v) nofun w
  cases h with
  | done hs _ hn =>
    cases hf.unique hs
    cases hn
  | next hs hn h =>
    cases hf.unique hs
    cases hn
    exact ⟨_, rfl, h⟩

theorem of_forces {v' : Value} {u' : World} (h : Yields w v xs w') (hf : Forces w v (.value s u))
    (hf' : Forces u' v' (.value s u)) : Yields u' v' xs w' := by
  cases h with
  | done hs he hn =>
    cases hf.unique hs
    exact .done hf' he hn
  | next hs hn h =>
    cases hf.unique hs
    exact .next hf' hn h

theorem opens (h : Yields w v xs w') :
    ∃ s u, Forces w v (.value s u) ∧ s.isSeqable = true ∧ Yields u v xs w' ∧ Yields u s xs w' ∧
      (xs = [] ∧ s.split? = none ∧ u = w' ∨
        ∃ x rest ys, xs = x :: ys ∧ s.split? = some (x, rest) ∧ Yields u rest ys w') := by
  cases h with
  | @done _ _ _ s hf he hn =>
    have h : Yields w v [] w' := .done hf he hn
    exact ⟨s, w', hf, he, h.of_forces hf (hf.again (.start w')),
      h.of_forces hf (.of_not_lazy hf.not_lazy w'), .inl ⟨rfl, hn, rfl⟩⟩
  | @next _ u _ _ s x rest ys hf hn h' =>
    have h : Yields w v (x :: ys) w' := .next hf hn h'
    exact ⟨s, u, hf, Value.isSeqable_of_split? hn, h.of_forces hf (hf.again (.start u)),
      h.of_forces hf (.of_not_lazy hf.not_lazy u), .inr ⟨x, rest, ys, rfl, hn, h'⟩⟩

theorem isSeqable (h : Yields w v xs w') : v.isSeqable = true := by
  obtain ⟨s, u, hf, he, -⟩ := h.opens
  by_cases hv : ∃ i, v = .lazy i
  · obtain ⟨i, rfl⟩ := hv
    rfl
  · cases hf.unique (Forces.of_not_lazy (fun i hi => hv ⟨i, hi⟩) w)
    exact he

theorem course (h : Yields w v xs w') : ∃ es, Course w es w' := by
  induction h with
  | done hf => exact hf.course
  | next hf _ _ ih =>
    obtain ⟨es, hes⟩ := hf.course
    obtain ⟨fs, hfs⟩ := ih
    exact ⟨_, hes.append hfs⟩

theorem later {es : List CellEvent} (h : Yields w v xs w') (hc : Course w' es u) : Yields u v xs u := by
  induction h with
  | done hf he hn => exact .done (hf.again hc) he hn
  | next hf hn h ih =>
    obtain ⟨fs, hfs⟩ := h.course
    exact .next (hf.again (hfs.append hc)) hn (ih hc)

theorem elements (h : Yields w v xs w') : Elements w' v xs := by
  induction h with
  | done hf _ hn => exact .nil (hn ▸ hf.atHand)
  | next hf hn h ih =>
    obtain ⟨es, hes⟩ := h.course
    exact .cons (hn ▸ hf.atHand.mono hes) ih

theorem eq_of_elements {ys : List Value} (h : Yields w v xs w') (he : Elements w v ys) :
    xs = ys ∧ w' = w := by
  induction h generalizing ys with
  | done hf _ hn =>
    cases he with
    | nil ha => exact ⟨rfl, (hf.eq_of_atHand ha).2⟩
    | cons ha _ => cases hn.symm.trans (hf.eq_of_atHand ha).1
  | next hf hn _ ih =>
    cases he with
    | nil ha => cases hn.symm.trans (hf.eq_of_atHand ha).1
    | cons ha he =>
      obtain ⟨hsplit, rfl⟩ := hf.eq_of_atHand ha
      cases hn.symm.trans hsplit
      obtain ⟨rfl, rfl⟩ := ih he
      exact ⟨rfl, rfl⟩

theorem plain (h : Yields w v xs w') (hl : ∀ i, v ≠ .lazy i) (hc : ∀ x rest, v ≠ .cons x rest) :
    w' = w ∧ Elements w v xs := by
  obtain ⟨ys, hys⟩ : ∃ ys, Elements w v ys := by
    cases v with
    | atom a => exact ⟨_, .atom a⟩
    | list ys => exact ⟨_, .list ys⟩
    | vector ys => exact ⟨_, .vector ys⟩
    | map es => exact ⟨_, .map es⟩
    | cons x rest => exact absurd rfl (hc x rest)
    | lazy i => exact absurd rfl (hl i)
    | callable i f => exact ⟨_, .callable i f⟩
  obtain ⟨rfl, rfl⟩ := h.eq_of_elements hys
  exact ⟨rfl, hys⟩

end Yields

/-- Going through a value with an accumulator: a step is made for an element once it was reached, and the
elements after it are reached from there. -/
inductive Folds (f : Nat → β → Value → Eval β) : World → β → Value → List Value → β → World → Prop
  | done {w u : World} {v s : Value} {b : β} : Forces w v (.value s u) → s.split? = none →
      Folds f w b v [] b u
  | next {w u u' w' : World} {v s x rest : Value} {xs : List Value} {b c d : β} :
      Forces w v (.value s u) → s.split? = some (x, rest) →
      Eventually (fun l => f l b x u) (.value c u') → Folds f u' c rest xs d w' →
      Folds f w b v (x :: xs) d w'

namespace Folds

variable {f : Nat → β → Value → Eval β} {w w' : World} {v : Value} {xs : List Value} {b c : β}

theorem eventually_foldSeq (h : Folds f w b v xs c w') :
    Eventually (fun l => (Kernel.withFuel l).foldSeq (f l) (Kernel.withFuel l).fuel b v w)
      (.value c w') := by
  have hn : ∃ n, ∀ l j, n ≤ l → n ≤ j → (Kernel.withFuel l).foldSeq (f l) j b v w = .value c w' := by
    induction h with
    | done hf hn =>
      obtain ⟨-, a, ha⟩ := hf.eventually_uncons
      refine ⟨a + 1, fun l j hl hj => ?_⟩
      obtain ⟨j, rfl⟩ : ∃ i, j = i + 1 := ⟨j - 1, by omega⟩
      rw [Kernel.foldSeq, Eval.bind_of_value (ha l (by omega)), hn]
      rfl
    | next hf hn hstep _ ih =>
      obtain ⟨-, a, ha⟩ := hf.eventually_uncons
      obtain ⟨-, d, hd⟩ := hstep
      obtain ⟨e, he⟩ := ih
      refine ⟨max (max a d) e + 1, fun l j hl hj => ?_⟩
      obtain ⟨j, rfl⟩ : ∃ i, j = i + 1 := ⟨j - 1, by omega⟩
      rw [Kernel.foldSeq, Eval.bind_of_value (ha l (by omega)), hn]
      refine (Eval.bind_of_value (hd l (by omega))).trans ?_
      exact he l j (by omega) (by omega)
  obtain ⟨n, hn⟩ := hn
  simp only [Kernel.fuel_withFuel]
  exact .of_forall fun l hl => hn l l hl hl

theorem of_foldSeq (hf : ∀ l l' b x, l ≤ l' → Below (f l b x) (f l' b x)) {l n : Nat}
    (h : (Kernel.withFuel l).foldSeq (f l) n b v w = .value c w') : ∃ xs, Folds f w b v xs c w' := by
  induction n generalizing b v w with
  | zero => cases h
  | succ n ih =>
    rw [Kernel.foldSeq, Kernel.uncons_eq_force, bind_assoc, Kernel.fuel_withFuel,
      Eval.bind_eq_value_iff] at h
    obtain ⟨s, u, hs, h⟩ := h
    have hforces := Forces.of_force hs
    rw [pure_bind] at h
    cases hn : s.split? with
    | none =>
      rw [hn] at h
      cases h
      exact ⟨[], .done hforces hn⟩
    | some next =>
      obtain ⟨x, rest⟩ := next
      rw [hn] at h
      obtain ⟨d, u', hd, h⟩ := Eval.bind_eq_value_iff.mp h
      have hstep : Eventually (fun l => f l b x u) (.value d u') :=
        .of_value (fun l l' hl => hf l l' b x hl u) hd
      obtain ⟨xs, hxs⟩ := ih h
      exact ⟨x :: xs, .next hforces hn hstep hxs⟩

theorem course (hf : ∀ {l b x u c u'}, f l b x u = .value c u' → ∃ es, Course u es u')
    (h : Folds f w b v xs c w') : ∃ es, Course w es w' := by
  induction h with
  | done hs => exact hs.course
  | next hs _ hstep _ ih =>
    obtain ⟨es, hes⟩ := hs.course
    obtain ⟨-, n, hn⟩ := hstep
    obtain ⟨fs, hfs⟩ := hf (hn n (Nat.le_refl n))
    obtain ⟨gs, hgs⟩ := ih
    exact ⟨_, (hes.append hfs).append hgs⟩

theorem elements (hf : ∀ {l b x u c u'}, f l b x u = .value c u' → ∃ es, Course u es u')
    (h : Folds f w b v xs c w') : Elements w' v xs := by
  induction h with
  | done hs hn => exact .nil (hn ▸ hs.atHand)
  | next hs hn hstep hxs ih =>
    obtain ⟨-, n, hstep⟩ := hstep
    obtain ⟨es, hes⟩ := hf (hstep n (Nat.le_refl n))
    obtain ⟨fs, hfs⟩ := hxs.course hf
    exact .cons (hn ▸ (hs.atHand.mono hes).mono hfs) ih

end Folds

namespace Yields

variable {w u w' : World} {v s : Value} {xs : List Value}

theorem folds {f : Nat → β → Value → Eval β} {g : β → Value → Option β}
    (hf : ∀ b x c, g b x = some c → ∀ u, Eventually (fun l => f l b x u) (.value c u))
    (h : Yields w v xs w') {b c : β} (hc : xs.foldlM g b = some c) : Folds f w b v xs c w' := by
  induction h generalizing b with
  | done hs _ hn =>
    cases hc
    exact .done hs hn
  | next hs hn _ ih =>
    rw [List.foldlM_cons, Option.bind_eq_bind, Option.bind_eq_some_iff] at hc
    obtain ⟨d, hd, hc⟩ := hc
    exact .next hs hn (hf _ _ d hd _) (ih hc)

theorem eventually_foldSeq (h : Yields w v xs w') (g : β → Value → β) (b : β) :
    Eventually (fun l => (Kernel.withFuel l).foldSeq (fun b x => pure (g b x))
      (Kernel.withFuel l).fuel b v w) (.value (xs.foldl g b) w') := by
  refine (h.folds (g := fun b x => some (g b x)) ?_ ?_).eventually_foldSeq
  · rintro b x _ ⟨⟩ u
    exact .pure (g b x) u
  · exact List.foldlM_pure

theorem eventually_elements (h : Yields w v xs w') :
    Eventually (fun l => (Kernel.withFuel l).elements v w) (.value xs w') := by
  refine (Eventually.bind_iff (h.eventually_foldSeq _ [])).mpr ?_
  have hr : xs.foldl (fun ys x => x :: ys) [] = xs.reverse := by simp
  rw [hr, List.reverse_reverse]
  exact .pure xs w'

theorem eventually_collect (h : Yields w v xs w') :
    Eventually (fun l => (Kernel.withFuel l).collect v w) (.value xs w') := by
  simp only [Kernel.collect, Eval.requireSeqable, if_pos h.isSeqable, pure_bind]
  exact h.eventually_elements

theorem eventually_count (h : Yields w v xs w') :
    Eventually (fun l => (Kernel.withFuel l).count v w) (.value (.int (Int64.ofNat xs.length)) w') := by
  have hlong : Eventually (fun l => (do
      Eval.requireSeqable v
      let n ← (Kernel.withFuel l).foldSeq (fun n _ => pure (n + 1)) (Kernel.withFuel l).fuel 0 v
      pure (Value.int (Int64.ofNat n)) : Eval Value) w) (.value (.int (Int64.ofNat xs.length)) w') := by
    simp only [Eval.requireSeqable, if_pos h.isSeqable, pure_bind]
    refine (Eventually.bind_iff (h.eventually_foldSeq (fun n _ => n + 1) 0)).mpr ?_
    have hlength : xs.foldl (fun n _ => n + 1) 0 = xs.length := by simp
    rw [hlength]
    exact .pure _ w'
  have hshort {ys : List Value} (he : Elements w v ys) :
      Eventually (fun _ => (pure (Value.int (Int64.ofNat ys.length)) : Eval Value) w)
        (.value (.int (Int64.ofNat xs.length)) w') := by
    obtain ⟨rfl, rfl⟩ := h.eq_of_elements he
    exact .pure _ w'
  cases v with
  | list ys => exact hshort (.list ys)
  | vector ys => exact hshort (.vector ys)
  | map es =>
    have hentries := hshort (.map es)
    rw [List.length_map] at hentries
    exact hentries
  | atom a =>
    cases a with
    | nil => exact hlong
    | _ => cases h.isSeqable
  | cons x rest => exact hlong
  | lazy i => exact hlong
  | callable i f => cases h.isSeqable

theorem eventually_isEmpty (h : Yields w v xs w') :
    ∃ u, Eventually (fun l => (Kernel.withFuel l).isEmpty v w) (.value (.bool xs.isEmpty) u) ∧
      Yields u v xs w' := by
  obtain ⟨s, u, hf, -, hv, -, hxs⟩ := h.opens
  refine ⟨u, ?_, hv⟩
  have hnone : s.split?.isNone = xs.isEmpty := by
    rcases hxs with ⟨rfl, hn, -⟩ | ⟨x, rest, ys, rfl, hn, -⟩ <;> rw [hn] <;> rfl
  have hmain : Eventually (fun l => (do
      Eval.requireSeqable v
      let next ← (Kernel.withFuel l).uncons (Kernel.withFuel l).fuel v
      pure (.bool next.isNone) : Eval Value) w) (.value (.bool xs.isEmpty) u) := by
    simp only [Eval.requireSeqable, if_pos h.isSeqable, pure_bind]
    refine hf.uncons_iff.mpr ?_
    rw [hnone]
    exact .pure _ u
  cases v with
  | atom a =>
    cases a with
    | str body => cases h.isSeqable
    | _ => exact hmain
  | _ => exact hmain

theorem eventually_first (h : Yields w v xs w') :
    ∃ u, Eventually (fun l => (Kernel.withFuel l).first v w) (.value (xs.head?.getD .nil) u) ∧
      Yields u v xs w' := by
  obtain ⟨s, u, hf, -, hv, -, hxs⟩ := h.opens
  refine ⟨u, ?_, hv⟩
  simp only [Kernel.first, Eval.requireSeqable, if_pos h.isSeqable, pure_bind]
  refine hf.uncons_iff.mpr ?_
  rcases hxs with ⟨rfl, hn, -⟩ | ⟨x, rest, ys, rfl, hn, -⟩ <;> rw [hn]
  · exact .pure _ u
  · exact .pure _ u

theorem eventually_firstElements (h : Yields w v xs w') (k : Nat) (reversed : List Value) :
    ∃ u, Eventually (fun l => (Kernel.withFuel l).firstElements k reversed v w)
      (.value (reversed.reverse ++ xs.take k) u) ∧ Yields u v xs w' ∧ ∃ es, Course w es u := by
  induction k generalizing w v xs reversed with
  | zero =>
    refine ⟨w, ?_, h, [], .start w⟩
    rw [List.take_zero, List.append_nil]
    exact .pure _ w
  | succ k ih =>
    obtain ⟨s, u, hf, -, hv, -, hxs⟩ := h.opens
    obtain ⟨es, hes⟩ := hf.course
    rcases hxs with ⟨rfl, hn, -⟩ | ⟨x, rest, ys, rfl, hn, hrest⟩
    · refine ⟨u, hf.uncons_iff.mpr ?_, hv, es, hes⟩
      rw [hn, List.take_nil, List.append_nil]
      exact .pure _ u
    · obtain ⟨u', htake, hrest', fs, hfs⟩ := ih hrest (x :: reversed)
      refine ⟨u', hf.uncons_iff.mpr ?_, .next (hf.again hfs) hn hrest',
        _, hes.append hfs⟩
      rw [hn]
      simpa using htake

theorem eventually_take (h : Yields w v xs w') (k : Int64) :
    ∃ u, Eventually (fun l => (Kernel.withFuel l).take (.int k) v w)
      (.value (.list (xs.take k.toInt.toNat)) u) ∧ Yields u v xs w' := by
  obtain ⟨u, htake, hv, -⟩ := h.eventually_firstElements k.toInt.toNat []
  refine ⟨u, ?_, hv⟩
  simp only [Kernel.take, Eval.requireInt, Eval.requireSeqable, if_pos h.isSeqable, pure_bind]
  exact (Eventually.bind_iff htake).mpr (.pure _ u)

theorem listOrNil (w : World) (xs : List Value) : Yields w (Kernel.listOrNil xs) xs w := by
  cases xs with
  | nil => exact .done (.of_not_lazy (v := .nil) nofun w) rfl rfl
  | cons x xs => exact .list w (x :: xs)

theorem eventually_seqOf (h : Yields w v xs w') :
    ∃ r u, Eventually (fun l => (Kernel.withFuel l).seqOf v w) (.value r u) ∧ (r = .nil ↔ xs = []) ∧
      Yields u r xs w' ∧ Yields u v xs w' ∧ ∃ es, Course w es u := by
  obtain ⟨s, u, hf, he, hv, hs, -⟩ := h.opens
  have hnil : Kernel.listOrNil xs = .nil ↔ xs = [] := by cases xs <;> simp [Kernel.listOrNil]
  cases s with
  | atom a =>
    cases a with
    | nil =>
      obtain ⟨rfl, rfl⟩ := hs.eq_of_elements (.atom .nil)
      exact ⟨.nil, w', hf.force_iff.mpr (.pure _ w'), by simp, hs, hv, hf.course⟩
    | _ => cases he
  | cons x rest =>
    obtain ⟨ys, rfl, -⟩ := hs.of_consCell
    exact ⟨.cons x rest, u, hf.force_iff.mpr (.pure _ u), by simp, hs, hv, hf.course⟩
  | list ys =>
    obtain ⟨rfl, rfl⟩ := hs.eq_of_elements (.list ys)
    exact ⟨_, w', hf.force_iff.mpr (.pure _ w'), hnil, .listOrNil w' xs, hv, hf.course⟩
  | vector ys =>
    obtain ⟨rfl, rfl⟩ := hs.eq_of_elements (.vector ys)
    refine ⟨_, w', hf.force_iff.mpr ?_, hnil, .listOrNil w' xs, hv, hf.course⟩
    exact (Eventually.bind_iff hs.eventually_collect).mpr (.pure _ w')
  | map es =>
    obtain ⟨rfl, rfl⟩ := hs.eq_of_elements (.map es)
    refine ⟨_, w', hf.force_iff.mpr ?_, hnil, .listOrNil w' _, hv, hf.course⟩
    exact (Eventually.bind_iff hs.eventually_collect).mpr (.pure _ w')
  | lazy i => exact absurd rfl (hf.not_lazy i)
  | callable i f => cases he

theorem eventually_tail (h : Yields w v xs w') :
    Eventually (fun l => (do
      Eval.requireSeqable v
      match ← (Kernel.withFuel l).uncons (Kernel.withFuel l).fuel v with
      | some (_, rest) =>
        let ys ← (Kernel.withFuel l).elements rest
        pure (.list ys)
      | none => pure (.list []) : Eval Value) w) (.value (.list xs.tail) w') := by
  obtain ⟨s, u, hf, -, -, -, hxs⟩ := h.opens
  simp only [Eval.requireSeqable, if_pos h.isSeqable, pure_bind]
  refine hf.uncons_iff.mpr ?_
  rcases hxs with ⟨rfl, hn, rfl⟩ | ⟨x, rest, ys, rfl, hn, hrest⟩ <;> rw [hn]
  · exact .pure _ u
  · exact (Eventually.bind_iff hrest.eventually_elements).mpr (.pure _ w')

theorem eventually_rest (h : Yields w v xs w') :
    ∃ r u, Eventually (fun l => (Kernel.withFuel l).rest v w) (.value r u) ∧ r ≠ .nil ∧
      Yields u r xs.tail w' ∧
      ∀ {u' es}, Course u es u' → Yields u' r xs.tail w' → Yields u' v xs w' := by
  obtain ⟨s, u, hf, -, hv, hs, -⟩ := h.opens
  -- A list has its elements in the last world only, so nothing happens after it was made.
  have hlist {ys : List Value} {u' : World} (hu : u = w') (hr : Yields u' (.list ys) ys w') :
      Yields u' v xs w' := by
    obtain ⟨-, rfl⟩ := hr.eq_of_elements (.list ys)
    exact hu ▸ hv
  cases s with
  | cons x rest =>
    obtain ⟨ys, rfl, hrest⟩ := hs.of_consCell
    by_cases hend : rest = .nil
    · subst hend
      obtain ⟨rfl, rfl⟩ := hrest.eq_of_elements (.atom .nil)
      exact ⟨.list [], w', hf.force_iff.mpr (.pure _ w'), nofun, .list w' [], fun _ hr => hlist rfl hr⟩
    · refine ⟨rest, u, hf.force_iff.mpr ?_, hend, hrest, fun hc hr => .next (hf.again hc) rfl hr⟩
      cases rest with
      | atom a =>
        cases a with
        | nil => exact absurd rfl hend
        | _ => exact .pure _ u
      | _ => exact .pure _ u
  | lazy i => exact absurd rfl (hf.not_lazy i)
  | _ =>
    obtain ⟨rfl, -⟩ := hs.plain nofun nofun
    exact ⟨.list xs.tail, w', hf.force_iff.mpr hs.eventually_tail, nofun, .list w' _,
      fun _ hr => hlist rfl hr⟩

theorem eventually_next (h : Yields w v xs w') :
    ∃ r u, Eventually (fun l => (Kernel.withFuel l).runPrimitive .next [v] w) (.value r u) ∧
      (r = .nil ↔ xs.length ≤ 1) ∧ Yields u r xs.tail w' ∧ Yields u v xs w' := by
  obtain ⟨t, u, hrest, -, ht, hback⟩ := h.eventually_rest
  obtain ⟨r, u', hseq, hnil, hr, ht', es, hes⟩ := ht.eventually_seqOf
  refine ⟨r, u', (Eventually.bind_iff hrest).mpr hseq, hnil.trans ?_, hr, hback hes ht'⟩
  rw [← List.length_eq_zero_iff, List.length_tail]
  omega

theorem eventually_prepend (h : Yields w v xs w') (y : Value) :
    ∃ r, Eventually (fun _ => Kernel.prepend y v w) (.value r w) ∧ Yields w r (y :: xs) w' := by
  by_cases hm : ∃ es, v = .map es
  · obtain ⟨es, rfl⟩ := hm
    obtain ⟨rfl, rfl⟩ := h.eq_of_elements (.map es)
    exact ⟨_, .pure _ w', (Yields.list w' _).consCell y⟩
  · have hcons : Kernel.prepend y v = pure (.cons y v) := by
      have hlong : (do Eval.requireSeqable v; pure (.cons y v) : Eval Value) = pure (.cons y v) := by
        rw [Eval.requireSeqable, if_pos h.isSeqable, pure_bind]
      cases v with
      | map es => exact absurd ⟨es, rfl⟩ hm
      | _ => exact hlong
    refine ⟨.cons y v, ?_, h.consCell y⟩
    rw [hcons]
    exact .pure _ w

end Yields

theorem calls_reduce_init_iff {v : Value} (hv : v.isSeqable = true) (i : Nat) (g : Callable Value)
    (init : Value) {w : World} {r : Outcome Value} :
    Calls w (.primitive .reduce) [.callable i g, init, v] r ↔
      Eventually (fun l => (Kernel.withFuel l).reduceFrom g init v w) r := by
  rw [calls_primitive_iff rfl]
  simp only [Kernel.runPrimitive, Kernel.reduceWith, Eval.requireCallable, Eval.requireSeqable, if_pos hv,
    pure_bind]

theorem calls_reduce_iff {v : Value} (hv : v.isSeqable = true) (i : Nat) (g : Callable Value)
    {w u : World} {p : Option (Value × Value)} (hs : Steps w v (.value p u)) {r : Outcome Value} :
    Calls w (.primitive .reduce) [.callable i g, v] r ↔
      Eventually (fun l => (match p with
        | some (x, rest) => (Kernel.withFuel l).reduceFrom g x rest
        | none => (Kernel.withFuel l).apply g []) u) r := by
  rw [calls_primitive_iff rfl]
  simp only [Kernel.runPrimitive, Kernel.reduce, Eval.requireCallable, Eval.requireSeqable, if_pos hv,
    pure_bind]
  exact Eventually.bind_iff hs.eventually_uncons

def Kernel.leftFold (k : Kernel) (g : Callable Value) : List Value → Eval Value
  | [] => k.apply g []
  | x :: xs => xs.foldlM (fun a y => k.apply g [a, y]) x

namespace Elements

variable {w : World} {v : Value} {xs : List Value}

theorem foldSeq_eq (h : Elements w v xs) :
    ∃ n, ∀ {u : World} {es : List CellEvent}, Course w es u → ∀ {l j : Nat} {f : β → Value → Eval β},
      (∀ {b x u c u'}, f b x u = .value c u' → ∃ es, Course u es u') → n ≤ l → n ≤ j →
      ∀ b, (Kernel.withFuel l).foldSeq f j b v u = xs.foldlM f b u := by
  induction h with
  | nil ha =>
    obtain ⟨n, hn⟩ := ha.uncons_later
    refine ⟨n + 1, fun {u es} hc l j f hf hl hj b => ?_⟩
    obtain ⟨j, rfl⟩ : ∃ i, j = i + 1 := ⟨j - 1, by omega⟩
    rw [Kernel.foldSeq, Kernel.fuel_withFuel, Eval.bind_of_value (hn hc _ l (by omega))]
    rfl
  | cons ha _ ih =>
    obtain ⟨n, hn⟩ := ha.uncons_later
    obtain ⟨n', hn'⟩ := ih
    refine ⟨max n n' + 1, fun {u es} hc l j f hf hl hj b => ?_⟩
    obtain ⟨j, rfl⟩ : ∃ i, j = i + 1 := ⟨j - 1, by omega⟩
    rw [Kernel.foldSeq, Kernel.fuel_withFuel, Eval.bind_of_value (hn hc _ l (by omega)), List.foldlM_cons]
    simp only [Eval.bind_apply]
    cases hstep : f b _ u with
    | value c u' =>
      obtain ⟨fs, hfs⟩ := hf hstep
      exact hn' (hc.append hfs) hf (by omega) (by omega) c
    | failure e u' => rfl
    | outOfFuel => rfl

theorem reduceFrom_iff (h : Elements w v xs) (g : Callable Value) (init : Value) {r : Outcome Value} :
    Eventually (fun l => (Kernel.withFuel l).reduceFrom g init v w) r ↔
      Eventually (fun l => (Kernel.withFuel l).leftFold g (init :: xs) w) r := by
  obtain ⟨n, hn⟩ := h.foldSeq_eq (β := Value)
  refine Eventually.congr_iff (n := n) fun l hl => ?_
  rw [Kernel.reduceFrom, Kernel.fuel_withFuel]
  exact hn (.start w) Kernel.course_of_apply hl hl init

theorem reduce_iff (h : Elements w v xs) (hv : v.isSeqable = true) (i : Nat) (g : Callable Value)
    {r : Outcome Value} :
    Calls w (.primitive .reduce) [.callable i g, v] r ↔
      Eventually (fun l => (Kernel.withFuel l).leftFold g xs w) r := by
  cases h with
  | nil ha => exact calls_reduce_iff hv i g ha.steps
  | cons ha he => exact (calls_reduce_iff hv i g ha.steps).trans (he.reduceFrom_iff g _)

end Elements

/-- What the primitives give for a value, in terms of the elements `xs` that going through it gives in the
world `w`, where this leaves the world `w'`. -/
structure Agree (w : World) (v : Value) (xs : List Value) (w' : World) : Prop where
  collect : Eventually (fun l => (Kernel.withFuel l).collect v w) (.value xs w')
  count : Calls w (.primitive .count) [v] (.value (.int (Int64.ofNat xs.length)) w')
  isEmpty : ∃ u, Calls w (.primitive .isEmpty) [v] (.value (.bool xs.isEmpty) u) ∧ Yields u v xs w'
  first : ∃ u, Calls w (.primitive .first) [v] (.value (xs.head?.getD .nil) u) ∧ Yields u v xs w'
  rest : ∃ r u, Calls w (.primitive .rest) [v] (.value r u) ∧ r ≠ .nil ∧ Yields u r xs.tail w' ∧
    Yields u v xs w'
  seq : ∃ r u, Calls w (.primitive .seq) [v] (.value r u) ∧ (r = .nil ↔ xs = []) ∧ Yields u r xs w' ∧
    Yields u v xs w'
  next : ∃ r u, Calls w (.primitive .next) [v] (.value r u) ∧ (r = .nil ↔ xs.length ≤ 1) ∧
    Yields u r xs.tail w' ∧ Yields u v xs w'
  take : ∀ k : Int64, ∃ u, Calls w (.primitive .take) [.int k, v]
    (.value (.list (xs.take k.toInt.toNat)) u) ∧ Yields u v xs w'
  cons : ∀ y, ∃ r, Calls w (.primitive .cons) [y, v] (.value r w) ∧ Yields w r (y :: xs) w'
  later : ∀ {u : World} {es : List CellEvent}, Course w' es u → Yields u v xs u
  /-- Once they were given, `reduce` is the left fold over them. -/
  reduce : ∀ {u : World} {es : List CellEvent}, Course w' es u → ∀ i g r,
    (Calls u (.primitive .reduce) [.callable i g, v] r ↔
      Eventually (fun l => (Kernel.withFuel l).leftFold g xs u) r) ∧
    ∀ init, (Calls u (.primitive .reduce) [.callable i g, init, v] r ↔
      Eventually (fun l => (Kernel.withFuel l).leftFold g (init :: xs) u) r)
  /-- Calls that leave the world alone have no influence on what the elements are. -/
  reduce_steady : ∀ i g (f : Value → Value → Option Value),
    (∀ a x b, f a x = some b → ∀ u, Calls u g [a, x] (.value b u)) → ∀ init c, xs.foldlM f init = some c →
    Calls w (.primitive .reduce) [.callable i g, init, v] (.value c w')
  /-- Whatever the calls do, `reduce` is the left fold over the elements that the value comes to have. -/
  reduce_meanwhile : ∀ i g init c u, Calls w (.primitive .reduce) [.callable i g, init, v] (.value c u) ↔
    ∃ ys, Elements u v ys ∧ Folds (fun l a x => (Kernel.withFuel l).apply g [a, x]) w init v ys c u
  reduce_nil : xs = [] → ∀ i g r, Calls w (.primitive .reduce) [.callable i g, v] r ↔ Calls w' g [] r
  reduce_cons : ∀ x ys, xs = x :: ys → ∃ rest u, Yields u rest ys w' ∧ Yields u v xs w' ∧
    ∀ i g r, Calls w (.primitive .reduce) [.callable i g, v] r ↔
      Calls u (.primitive .reduce) [.callable i g, x, rest] r

theorem Yields.agree {w w' : World} {v : Value} {xs : List Value} (h : Yields w v xs w') :
    Agree w v xs w' where
  collect := h.eventually_collect
  count := (calls_primitive_iff rfl).mpr h.eventually_count
  isEmpty := by
    obtain ⟨u, hu, hv⟩ := h.eventually_isEmpty
    exact ⟨u, (calls_primitive_iff rfl).mpr hu, hv⟩
  first := by
    obtain ⟨u, hu, hv⟩ := h.eventually_first
    exact ⟨u, (calls_primitive_iff rfl).mpr hu, hv⟩
  rest := by
    obtain ⟨r, u, hu, hne, hr, hv⟩ := h.eventually_rest
    exact ⟨r, u, (calls_primitive_iff rfl).mpr hu, hne, hr, hv (.start u) hr⟩
  seq := by
    obtain ⟨r, u, hu, hn, hr, hv, -⟩ := h.eventually_seqOf
    exact ⟨r, u, (calls_primitive_iff rfl).mpr hu, hn, hr, hv⟩
  next := by
    obtain ⟨r, u, hu, hn, hr, hv⟩ := h.eventually_next
    exact ⟨r, u, (calls_primitive_iff rfl).mpr hu, hn, hr, hv⟩
  take := fun k => by
    obtain ⟨u, hu, hv⟩ := h.eventually_take k
    exact ⟨u, (calls_primitive_iff rfl).mpr hu, hv⟩
  cons := fun y => by
    obtain ⟨r, hr, hy⟩ := h.eventually_prepend y
    exact ⟨r, (calls_primitive_iff rfl).mpr hr, hy⟩
  later := h.later
  reduce := fun hc i g r => by
    have he := h.elements.mono hc
    exact ⟨he.reduce_iff h.isSeqable i g,
      fun init => (calls_reduce_init_iff h.isSeqable i g init).trans (he.reduceFrom_iff g init)⟩
  reduce_steady := fun i g f hf init c hc =>
    (calls_reduce_init_iff h.isSeqable i g init).mpr (h.folds hf hc).eventually_foldSeq
  reduce_meanwhile := fun i g init c u => by
    rw [calls_reduce_init_iff h.isSeqable]
    constructor
    · rintro ⟨-, n, hn⟩
      obtain ⟨ys, hys⟩ := Folds.of_foldSeq
        (fun l l' a x hl => (Kernel.earlier_follows_of_le hl).rel_apply g [a, x]) (hn n (Nat.le_refl n))
      exact ⟨ys, hys.elements Kernel.course_of_apply, hys⟩
    · rintro ⟨ys, -, hys⟩
      exact hys.eventually_foldSeq
  reduce_nil := fun hnil i g r => by
    obtain ⟨s, u, hf, -, -, -, ⟨-, hn, rfl⟩ | ⟨x, rest, ys, hcons, -⟩⟩ := h.opens
    · exact calls_reduce_iff h.isSeqable i g (hn ▸ hf.steps_value)
    · cases hnil.symm.trans hcons
  reduce_cons := fun x ys hcons => by
    obtain ⟨s, u, hf, -, hv, -, ⟨hnil, -⟩ | ⟨x', rest, ys', hcons', hn, hrest⟩⟩ := h.opens
    · cases hnil.symm.trans hcons
    · cases hcons.symm.trans hcons'
      have hs : Steps w v (.value (some (x, rest)) u) := hn ▸ hf.steps_value
      exact ⟨rest, u, hrest, hv, fun i g r => (calls_reduce_iff h.isSeqable i g hs).trans
        (calls_reduce_init_iff hrest.isSeqable i g x).symm⟩

def mixed : Value := .cons (.int 5) (.lazy 0)

def mixedWorld : World :=
  { World.empty with
    cells := #[⟨0, .realized (.lazy 1)⟩, ⟨0, .unrealized (.repeating (.int 7) (some 1))⟩] }

def mixedWorldBegun : World :=
  { World.empty with
    cells := #[⟨0, .realized (.lazy 1)⟩, ⟨0, .realized (.cons (.int 7) (.lazy 2))⟩,
      ⟨0, .unrealized (.repeating (.int 7) (some 0))⟩] }

def mixedWorldEnded : World :=
  { World.empty with
    cells := #[⟨0, .realized (.lazy 1)⟩, ⟨0, .realized (.cons (.int 7) (.lazy 2))⟩,
      ⟨0, .realized (.list [])⟩] }

theorem yields_mixed : Yields mixedWorld mixed [.int 5, .int 7] mixedWorldEnded := by
  have hbegun : (Kernel.withFuel 4).force 4 (.lazy 0) mixedWorld =
      .value (.cons (.int 7) (.lazy 2)) mixedWorldBegun := rfl
  have hended : (Kernel.withFuel 4).force 4 (.lazy 2) mixedWorldBegun =
      .value (.list []) mixedWorldEnded := rfl
  exact (Yields.next (.of_force hbegun) rfl (.done (.of_force hended) rfl rfl)).consCell (.int 5)

theorem Yields.agree_mixed :
    Yields mixedWorld mixed [.int 5, .int 7] mixedWorldEnded ∧
      Calls mixedWorld (.primitive .count) [mixed] (.value (.int 2) mixedWorldEnded) ∧
      (∃ r u, Calls mixedWorld (.primitive .next) [mixed] (.value r u) ∧ r ≠ .nil ∧
        Yields u r [.int 7] mixedWorldEnded) ∧
      Calls mixedWorldEnded (.primitive .reduce) [.callable 0 (.primitive .add), mixed]
        (.value (.int 12) mixedWorldEnded) := by
  have h := Yields.agree yields_mixed
  refine ⟨yields_mixed, h.count, ?_, ((h.reduce (.start _) 0 (.primitive .add) _).1).mpr ?_⟩
  · obtain ⟨r, u, hr, hn, hy, -⟩ := h.next
    exact ⟨r, u, hr, fun hnil => absurd (hn.mp hnil) (by decide), hy⟩
  · refine Eventually.of_forall (n := 2) fun l hl => ?_
    obtain ⟨l, rfl⟩ : ∃ j, l = j + 2 := ⟨l - 2, by omega⟩
    rfl

end LazyLisp
