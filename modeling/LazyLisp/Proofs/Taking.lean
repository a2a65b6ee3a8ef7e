import LazyLisp.Proofs.Sequences

namespace LazyLisp

variable {α : Type}

def Outcome.withFrames (fs : List Frame) : Outcome α → Outcome α
  | value a w => .value a { w with frames := fs }
  | failure e w => .failure e { w with frames := fs }
  | outOfFuel => .outOfFuel

namespace Kernel

-- A body runs without local bindings, and those that there were are put back after it.
theorem realize_withFrames (k : Kernel) (i : Nat) (w : World) (fs : List Frame) :
    k.realize i { w with frames := fs } = (k.realize i w).withFrames fs := by
  unfold realize
  cases w.cells[i]? with
  | none => rfl
  | some cell =>
    obtain ⟨era, state⟩ := cell
    cases state with
    | realized v => rfl
    | running => rfl
    | unrealized body =>
      dsimp only
      by_cases he : era = w.era
      · rw [if_pos he, if_pos he]
        simp only [Eval.withoutLocals, Eval.within, World.setCell]
        cases k.apply body [] _ with
        | value v u =>
          simp only [settle, World.setCell]
          cases v.asSequence? <;> rfl
        | failure e u => rfl
        | outOfFuel => rfl
      · rw [if_neg he, if_neg he]
        rfl

theorem force_withFrames (k : Kernel) (n : Nat) (v : Value) (w : World) (fs : List Frame) :
    k.force n v { w with frames := fs } = (k.force n v w).withFrames fs := by
  induction n generalizing v w with
  | zero => cases v <;> rfl
  | succ n ih =>
    cases v with
    | lazy i =>
      rw [force, Eval.bind_apply, Eval.bind_apply, realize_withFrames]
      cases k.realize i w with
      | value s u => exact ih s u
      | failure e u => rfl
      | outOfFuel => rfl
    | _ => rfl

end Kernel

namespace Forces

variable {w u : World} {v s : Value}

theorem withFrames (h : Forces w v (.value s u)) (fs : List Frame) :
    Forces { w with frames := fs } v (.value s { u with frames := fs }) := by
  obtain ⟨n, hn⟩ := h.exists_fuel
  refine Eventually.of_forall (n := n) fun l hl => ?_
  rw [Kernel.force_withFrames, hn l hl]
  rfl

theorem frames_eq (h : Forces w v (.value s u)) : u.frames = w.frames := by
  have he := h.unique (h.withFrames w.frames)
  injection he with _ hu
  rw [hu]

end Forces

/-- At most `n` elements are taken from the front of a value, and nothing is looked at after them. -/
inductive Taken : World → Value → Nat → List Value → World → Prop
  | enough (w : World) (v : Value) : Taken w v 0 [] w
  | ended {w u : World} {v s : Value} {n : Nat} : Forces w v (.value s u) → s.split? = none →
      Taken w v (n + 1) [] u
  | next {w u w' : World} {v s x rest : Value} {n : Nat} {xs : List Value} :
      Forces w v (.value s u) → s.split? = some (x, rest) → Taken u rest n xs w' →
      Taken w v (n + 1) (x :: xs) w'

namespace Taken

variable {w u w' : World} {v : Value} {n : Nat} {xs : List Value} {es : List CellEvent}

theorem course (h : Taken w v n xs w') : ∃ es, Course w es w' := by
  induction h with
  | enough w v => exact ⟨[], .start w⟩
  | ended hf _ => exact hf.course
  | next hf _ _ ih =>
    obtain ⟨es, hes⟩ := hf.course
    obtain ⟨fs, hfs⟩ := ih
    exact ⟨_, hes.append hfs⟩

theorem length_le (h : Taken w v n xs w') : xs.length ≤ n := by
  induction h with
  | enough w v => exact Nat.le_refl 0
  | ended _ _ => exact Nat.zero_le _
  | next _ _ _ ih => exact Nat.succ_le_succ ih

theorem again (h : Taken w v n xs w') (hc : Course w' es u) : Taken u v n xs u := by
  induction h with
  | enough w v => exact .enough u v
  | ended hf hn => exact .ended (hf.again hc) hn
  | next hf hn h ih =>
    obtain ⟨fs, hfs⟩ := h.course
    exact .next (hf.again (hfs.append hc)) hn (ih hc)

theorem elements (h : Taken w v n xs w') (hl : xs.length < n) : Elements w' v xs := by
  induction h with
  | enough w v => omega
  | ended hf hn => exact .nil (hn ▸ hf.atHand)
  | next hf hn h ih =>
    obtain ⟨es, hes⟩ := h.course
    exact .cons (hn ▸ hf.atHand.mono hes) (ih (Nat.lt_of_succ_lt_succ hl))

theorem eventually_firstElements (h : Taken w v n xs w') (reversed : List Value) :
    Eventually (fun l => (Kernel.withFuel l).firstElements n reversed v w)
      (.value (reversed.reverse ++ xs) w') := by
  induction h generalizing reversed with
  | enough w v =>
    rw [List.append_nil]
    exact .pure _ w
  | @ended _ u _ _ _ hf hn =>
    refine hf.uncons_iff.mpr ?_
    rw [hn, List.append_nil]
    exact .pure _ u
  | @next _ _ _ _ _ x _ _ xs hf hn _ ih =>
    refine hf.uncons_iff.mpr ?_
    rw [hn]
    have ih := ih (x :: reversed)
    rwa [List.reverse_cons, List.append_assoc, List.singleton_append] at ih

theorem calls_take {k : Int64} (h : Taken w v k.toInt.toNat xs w') (hv : v.isSeqable = true) :
    Calls w (.primitive .take) [.int k, v] (.value (.list xs) w') := by
  rw [calls_primitive_iff rfl]
  simp only [Kernel.runPrimitive, Kernel.take, Eval.requireInt, Eval.requireSeqable, if_pos hv, pure_bind]
  exact (Eventually.bind_iff (h.eventually_firstElements [])).mpr (.pure _ w')

theorem of_realizes {i : Nat} {s : Value} (hr : Realizes w i (.value s u)) (h : Taken u s (n + 1) xs w') :
    Taken w (.lazy i) (n + 1) xs w' := by
  cases h with
  | ended hf hn => exact .ended ((Forces.lazy_iff hr).mpr hf) hn
  | next hf hn h => exact .next ((Forces.lazy_iff hr).mpr hf) hn h

theorem foldSeq_eq_outOfFuel {β : Type} {f : β → Value → Eval β} (hf : ∀ b x u, ∃ c, f b x u = .value c u)
    (h : Taken w v n xs w') (hl : xs.length = n) (l : Nat) (b : β) :
    (Kernel.withFuel l).foldSeq f n b v w = .outOfFuel := by
  induction h generalizing b with
  | enough w v => rfl
  | ended _ _ => cases hl
  | @next w u _ v s x rest n xs hs hn _ ih =>
    obtain ⟨-, a, ha⟩ := hs.eventually_uncons
    have hle : Below ((Kernel.withFuel l).uncons (Kernel.withFuel l).fuel v)
        ((Kernel.withFuel (max l a)).uncons (Kernel.withFuel (max l a)).fuel v) := by
      rw [Kernel.uncons_eq_force, Kernel.uncons_eq_force, Kernel.fuel_withFuel, Kernel.fuel_withFuel]
      exact (Kernel.below_force (Nat.le_max_left l a) (Nat.le_max_left l a) v).bind fun _ => .refl _
    rw [Kernel.foldSeq]
    rcases hle w with hu | hu
    · rw [Eval.bind_apply, hu]
    · obtain ⟨c, hc⟩ := hf b x u
      rw [Eval.bind_of_value (hu.trans (ha _ (Nat.le_max_right l a))), hn]
      exact (Eval.bind_of_value hc).trans (ih (Nat.succ.inj hl) c)

theorem withFrames (h : Taken w v n xs w') (fs : List Frame) :
    Taken { w with frames := fs } v n xs { w' with frames := fs } := by
  induction h with
  | enough w v => exact .enough _ v
  | ended hf hn => exact .ended (hf.withFrames fs) hn
  | next hf hn _ ih => exact .next (hf.withFrames fs) hn ih

theorem eventually_elements (h : Taken w v n xs w') (hl : xs.length < n) :
    Eventually (fun l => (Kernel.withFuel l).elements v w) (.value xs w') := by
  have hfold (ys : List Value) : Eventually (fun l => (Kernel.withFuel l).foldSeq
      (fun ys x => pure (x :: ys)) (Kernel.withFuel l).fuel ys v w) (.value (xs.reverse ++ ys) w') := by
    have hf : Folds (fun _ ys x => pure (x :: ys)) w ys v xs (xs.reverse ++ ys) w' := by
      induction h generalizing ys with
      | enough w v => omega
      | ended hf hn => exact .done hf hn
      | @next _ u _ _ _ x _ _ xs hf hn _ ih =>
        have ih := ih (Nat.lt_of_succ_lt_succ hl) (x :: ys)
        rw [List.reverse_cons, List.append_assoc, List.singleton_append]
        exact .next hf hn (.pure (x :: ys) u) ih
    exact hf.eventually_foldSeq
  refine (Eventually.bind_iff (hfold [])).mpr ?_
  rw [List.append_nil, List.reverse_reverse]
  exact .pure xs w'

end Taken

def Endless (w : World) (v : Value) : Prop := ∀ n, ∃ xs w', Taken w v n xs w' ∧ xs.length = n

namespace Endless

variable {w : World} {v : Value}

theorem withFrames (h : Endless w v) (fs : List Frame) : Endless { w with frames := fs } v := by
  intro n
  obtain ⟨xs, w', ht, hl⟩ := h n
  exact ⟨xs, _, ht.withFrames fs, hl⟩

theorem elements_eq_outOfFuel (h : Endless w v) (l : Nat) :
    (Kernel.withFuel l).elements v w = .outOfFuel := by
  obtain ⟨xs, w', ht, hl⟩ := h l
  have hfold : (Kernel.withFuel l).foldSeq (fun ys x => pure (x :: ys)) l [] v w = .outOfFuel :=
    ht.foldSeq_eq_outOfFuel (fun ys x _ => ⟨x :: ys, rfl⟩) hl l []
  rw [Kernel.elements, Kernel.fuel_withFuel, Eval.bind_apply, hfold]

end Endless

end LazyLisp
