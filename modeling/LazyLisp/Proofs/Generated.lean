import LazyLisp.Proofs.Mapping
import LazyLisp.Proofs.Progression

namespace LazyLisp

open Kernel (exhausted oneFewer)

namespace Callable

def isGenerator {V : Type} : Callable V → Bool
  | iterating _ _ | repeating _ _ | calling _ _ => true
  | _ => false

def isSpent {V : Type} : Callable V → Bool
  | repeating _ n | calling _ n => exhausted n
  | _ => false

def asks? {V : Type} : Callable V → Option (Callable V × List V)
  | iterating f x => some (f, [x])
  | calling f _ => some (f, [])
  | _ => none

def requests {V : Type} (g : Callable V) : List (List V) := (g.asks?.map Prod.snd).toList

def source? {V : Type} (g : Callable V) : Option (Callable V) := g.asks?.map Prod.fst

def following {V : Type} : Callable V → V → Callable V
  | iterating f _, y => iterating f y
  | repeating x n, _ => repeating x (oneFewer n)
  | calling f n, _ => calling f (oneFewer n)
  | f, _ => f

end Callable

theorem Callable.repeating_or_asks {V : Type} {g : Callable V} (hg : g.isGenerator = true) :
    (∃ x n, g = .repeating x n) ∨ ∃ f args, g.asks? = some (f, args) := by
  cases g with
  | repeating x n => exact .inl ⟨x, n, rfl⟩
  | iterating f x => exact .inr ⟨f, [x], rfl⟩
  | calling f n => exact .inr ⟨f, [], rfl⟩
  | _ => cases hg

theorem Callable.isGenerator_following {V : Type} {g : Callable V} (hg : g.isGenerator = true) (y : V) :
    (g.following y).isGenerator = true := by
  cases g <;> first | rfl | cases hg

theorem Kernel.call_of_asks {g f : Callable Value} {args : List Value} (hg : g.asks? = some (f, args))
    (hs : g.isSpent = false) (k : Kernel) (a : Args) :
    k.call g a = k.apply f args >>= fun y => Eval.newCell (g.following y) >>= fun rest => pure (.cons y rest) := by
  cases g with
  | iterating f x =>
    cases hg
    rfl
  | calling f n =>
    cases hg
    exact if_neg (by rw [show exhausted n = false from hs]; exact Bool.false_ne_true)
  | _ => cases hg

inductive Emits (w : World) : Callable Value → Value → World → Prop
  | repeating {x : Value} {n : Option Int64} : exhausted n = false → Emits w (.repeating x n) x w
  | asking {g f : Callable Value} {args : List Value} {y : Value} {u : World} : g.asks? = some (f, args) →
      g.isSpent = false → Calls w f args (.value y u) → Emits w g y u

namespace World

def emitted (w : World) (i : Nat) (g : Callable Value) (y : Value) (u : World) : World :=
  w.leaveBody i (u.addCell (g.following y)).2 (.cons y (.lazy u.cells.size))

def withCell (w : World) (g : Callable Value) : World := (w.addCell g).2

theorem awaits_withCell (w : World) (g : Callable Value) : (w.withCell g).Awaits w.cells.size g :=
  (getElem?_addCell w g w.cells.size).trans (if_pos rfl)

end World

namespace Emits

variable {w u : World} {i : Nat} {g : Callable Value} {y : Value}

theorem passes (h : Emits (w.running i) g y u) : (w.setCell i .running).Passes u := by
  have hrunning : (w.setCell i .running).Passes (w.running i) := .of_cells_eq rfl
  cases h with
  | repeating _ => exact hrunning
  | asking _ _ hc => exact hrunning.trans hc.passes

theorem calls (h : Emits w g y u) :
    Calls w g [] (.value (.cons y (.lazy u.cells.size)) (u.addCell (g.following y)).2) := by
  rw [calls_iff]
  cases h with
  | @repeating x n hn =>
    refine .of_forall (n := 0) fun l _ => ?_
    simp only [Kernel.call, Kernel.repeatStep, hn, Bool.false_eq_true, if_false]
    rfl
  | asking hg hs hc =>
    simp only [Kernel.call_of_asks hg hs]
    exact (Eventually.bind_iff hc).mpr (.of_forall (n := 0) fun _ _ => rfl)

end Emits

namespace World.Awaits

variable {w u : World} {i : Nat} {g : Callable Value} {y : Value}

theorem emitted (h : w.Awaits i g) (he : Emits (w.running i) g y u) :
    (w.emitted i g y u).Awaits u.cells.size (g.following y) :=
  getElem?_leaveBody_addCell h he.passes _ _

theorem realizes (h : w.Awaits i g) (he : Emits (w.running i) g y u) :
    Realizes w i (.value (.cons y (.lazy u.cells.size)) (w.emitted i g y u)) :=
  .of_calls_value h he.calls rfl

theorem realizes_spent (h : w.Awaits i g) (hg : g.isSpent = true) :
    Realizes w i (.value (.list []) (w.leaveBody i (w.running i) (.list []))) := by
  have hcall : Calls (w.running i) g [] (.value .nil (w.running i)) := by
    refine calls_iff.mpr (.of_forall (n := 0) fun l _ => ?_)
    cases g with
    | repeating x n => simp only [Kernel.call, Kernel.repeatStep, show exhausted n = true from hg, if_true]; rfl
    | calling f n => simp only [Kernel.call, Kernel.callStep, show exhausted n = true from hg, if_true]; rfl
    | _ => cases hg
  exact .of_calls_value h hcall rfl

variable {v : World} {s : Value}

theorem exists_emits (h : w.Awaits i g) (hg : g.isGenerator = true) (hs : g.isSpent = false)
    (hr : Realizes w i (.value s v)) : ∃ y u, Emits (w.running i) g y u := by
  rcases Callable.repeating_or_asks hg with ⟨x, n, rfl⟩ | ⟨f, args, hf⟩
  · exact ⟨x, _, .repeating hs⟩
  · obtain ⟨r', hcall, hsettled⟩ := hr.exists_calls h
    obtain ⟨x, u, rfl, -⟩ := World.settled_eq_value hsettled.symm
    obtain ⟨-, n, hn⟩ := calls_iff.mp hcall
    have hn : (Kernel.withFuel n).call g (.ofValues []) (w.running i) = .value x u := hn n (Nat.le_refl n)
    rw [Kernel.call_of_asks hf hs] at hn
    obtain ⟨y, u', hy, -⟩ := Eval.bind_eq_value_iff.mp hn
    exact ⟨y, u', .asking hf hs (.of_apply hy)⟩

theorem forces_iff (h : w.Awaits i g) (hg : g.isGenerator = true) :
    Forces w (.lazy i) (.value s v) ↔
      g.isSpent = true ∧ s = .list [] ∧ v = w.leaveBody i (w.running i) (.list []) ∨
        ∃ y u, Emits (w.running i) g y u ∧ s = .cons y (.lazy u.cells.size) ∧ v = w.emitted i g y u := by
  have hspent (hs : g.isSpent = true) :
      Forces w (.lazy i) (.value (.list []) (w.leaveBody i (w.running i) (.list []))) :=
    (Forces.lazy_iff (h.realizes_spent hs)).mpr (.of_not_lazy (v := .list []) nofun _)
  have hemits {y : Value} {u : World} (he : Emits (w.running i) g y u) :
      Forces w (.lazy i) (.value (.cons y (.lazy u.cells.size)) (w.emitted i g y u)) :=
    (Forces.lazy_iff (h.realizes he)).mpr (.of_not_lazy (v := .cons y (.lazy u.cells.size)) nofun _)
  constructor
  · intro hf
    cases hs : g.isSpent with
    | true =>
      cases hf.unique (hspent hs)
      exact .inl ⟨rfl, rfl, rfl⟩
    | false =>
      obtain ⟨s', u', hr, -⟩ := hf.of_lazy
      obtain ⟨y, u, he⟩ := h.exists_emits hg hs hr
      cases hf.unique (hemits he)
      exact .inr ⟨y, u, he, rfl, rfl⟩
  · rintro (⟨hs, rfl, rfl⟩ | ⟨y, u, he, rfl, rfl⟩)
    · exact hspent hs
    · exact hemits he

end World.Awaits

/-- From the cell `i` with the body `g`, the elements `ys` are given one after the other, which leaves the world
`w'` and leads to the cell `j` with the body `h`. `calls` are all calls that were made for them. -/
inductive Unrolls : World → Nat → Callable Value → List (List Value) → List Value → World → Nat →
    Callable Value → Prop
  | start (w : World) (i : Nat) (g : Callable Value) : Unrolls w i g [] [] w i g
  | next {w u w' : World} {i j : Nat} {g h : Callable Value} {y : Value} {calls : List (List Value)}
      {ys : List Value} : Emits (w.running i) g y u →
      Unrolls (w.emitted i g y u) u.cells.size (g.following y) calls ys w' j h →
      Unrolls w i g (g.requests ++ calls) (y :: ys) w' j h

namespace World.Awaits

variable {w w' u : World} {i j : Nat} {g h : Callable Value} {ys : List Value} {calls : List (List Value)}

theorem unrolls (hw : w.Awaits i g) (hu : Unrolls w i g calls ys u j h) :
    Advances w (.lazy i) ys u (.lazy j) ∧ u.Awaits j h := by
  induction hu with
  | start w i g => exact ⟨.start w _, hw⟩
  | next he _ ih =>
    obtain ⟨ha, hj⟩ := ih (hw.emitted he)
    have hf := (Forces.lazy_iff (hw.realizes he)).mpr (.of_not_lazy (v := .cons _ _) nofun _)
    exact ⟨.next hf rfl ha, hj⟩

theorem taken_iff (hw : w.Awaits i g) (hg : g.isGenerator = true) :
    Taken w (.lazy i) ys.length ys w' ↔ ∃ calls j h, Unrolls w i g calls ys w' j h := by
  constructor
  · intro ht
    induction ys generalizing w i g with
    | nil =>
      cases ht
      exact ⟨[], i, g, .start _ i g⟩
    | cons y ys ih =>
      cases ht with
      | next hf hn ht =>
        rcases (hw.forces_iff hg).mp hf with ⟨-, rfl, -⟩ | ⟨z, u, he, rfl, rfl⟩
        · cases hn
        · cases hn
          obtain ⟨calls, j, h, hu⟩ := ih (hw.emitted he) (Callable.isGenerator_following hg _) ht
          exact ⟨_, j, h, .next he hu⟩
  · rintro ⟨calls, j, h, hu⟩
    exact (hw.unrolls hu).1.taken

theorem yields_iff (hw : w.Awaits i g) (hg : g.isGenerator = true) :
    Yields w (.lazy i) ys w' ↔ ∃ calls u j h, Unrolls w i g calls ys u j h ∧ h.isSpent = true ∧
      w' = u.leaveBody j (u.running j) (.list []) := by
  constructor
  · intro hy
    induction ys generalizing w i g with
    | nil =>
      cases hy with
      | done hf _ hn =>
        rcases (hw.forces_iff hg).mp hf with ⟨hs, -, rfl⟩ | ⟨z, u, -, rfl, -⟩
        · exact ⟨[], w, i, g, .start w i g, hs, rfl⟩
        · cases hn
    | cons y ys ih =>
      cases hy with
      | next hf hn hy =>
        rcases (hw.forces_iff hg).mp hf with ⟨-, rfl, -⟩ | ⟨z, u, he, rfl, rfl⟩
        · cases hn
        · cases hn
          obtain ⟨calls, v, j, h, hu, hs, hw'⟩ := ih (hw.emitted he) (Callable.isGenerator_following hg _) hy
          exact ⟨_, v, j, h, .next he hu, hs, hw'⟩
  · rintro ⟨calls, u, j, h, hu, hs, rfl⟩
    obtain ⟨ha, hj⟩ := hw.unrolls hu
    have hend : Yields u (.lazy j) [] (u.leaveBody j (u.running j) (.list [])) :=
      .done ((Forces.lazy_iff (hj.realizes_spent hs)).mpr (.of_not_lazy (v := .list []) nofun _)) rfl rfl
    exact List.append_nil ys ▸ ha.yields hend

end World.Awaits

theorem exhausted_iff {n : Int64} : exhausted (some n) = true ↔ n.toInt ≤ 0 := by
  rw [exhausted, decide_eq_true_eq, Int64.le_iff_toInt_le, Int64.toInt_zero]

theorem toInt_sub_one {n : Int64} (h : exhausted (some n) = false) : 0 < n.toInt ∧ (n - 1).toInt = n.toInt - 1 := by
  have hn : 0 < n.toInt := by
    rw [← Int.not_le, ← exhausted_iff, h]
    exact Bool.false_ne_true
  have hlt : n.toInt < 2 ^ 63 := n.toInt_lt
  refine ⟨hn, ?_⟩
  rw [Int64.toInt_sub, Int64.toInt_one]
  exact Int.bmod_eq_of_le (by omega) (by omega)

namespace Unrolls

variable {w u : World} {i j : Nat} {h : Callable Value} {ys : List Value} {calls : List (List Value)}

theorem repeating {x : Value} {n : Int64} (hu : Unrolls w i (.repeating x (some n)) calls ys u j h) :
    calls = [] ∧ ys = List.replicate ys.length x ∧ ys.length ≤ n.toInt.toNat ∧
      ∃ m : Int64, h = .repeating x (some m) ∧ m.toInt = n.toInt - ys.length := by
  generalize hg : Callable.repeating x (some n) = g at hu
  induction hu generalizing n with
  | start w i g => exact ⟨rfl, rfl, Nat.zero_le _, n, hg.symm, (Int.sub_zero _).symm⟩
  | next he _ ih =>
    subst hg
    cases he with
    | repeating hn =>
      obtain ⟨hpos, hone⟩ := toInt_sub_one hn
      obtain ⟨rfl, hys, hle, m, rfl, hm⟩ := ih (n := n - 1) rfl
      refine ⟨rfl, congrArg (List.cons x) hys, ?_, m, rfl, ?_⟩ <;> rw [List.length_cons] <;> omega
    | asking hg _ _ => cases hg

theorem calling {f : Callable Value} {n : Int64} (hu : Unrolls w i (.calling f (some n)) calls ys u j h) :
    calls = List.replicate ys.length [] ∧ ys.length ≤ n.toInt.toNat ∧
      ∃ m : Int64, h = .calling f (some m) ∧ m.toInt = n.toInt - ys.length := by
  generalize hg : Callable.calling f (some n) = g at hu
  induction hu generalizing n with
  | start w i g => exact ⟨rfl, Nat.zero_le _, n, hg.symm, (Int.sub_zero _).symm⟩
  | next he _ ih =>
    subst hg
    cases he with
    | asking hg hn _ =>
      cases hg
      obtain ⟨hpos, hone⟩ := toInt_sub_one hn
      obtain ⟨rfl, hle, m, rfl, hm⟩ := ih (n := n - 1) rfl
      refine ⟨rfl, ?_, m, rfl, ?_⟩ <;> rw [List.length_cons] <;> omega

theorem iterating {f : Callable Value} {x : Value} (hu : Unrolls w i (.iterating f x) calls ys u j h) :
    calls = ((x :: ys).take ys.length).map ([·]) ∧ h = .iterating f ((x :: ys).getLast (List.cons_ne_nil _ _)) := by
  generalize hg : Callable.iterating f x = g at hu
  induction hu generalizing x with
  | start w i g => exact ⟨rfl, hg.symm⟩
  | next he _ ih =>
    subst hg
    cases he with
    | asking hg _ _ =>
      cases hg
      obtain ⟨rfl, rfl⟩ := ih rfl
      exact ⟨rfl, by rw [List.getLast_cons_cons]⟩

theorem callsOf_recorder {g : Callable Value} {log : Nat} {result : Value} (hu : Unrolls w i g calls ys u j h)
    (hg : g.source? = some (.recorder log result)) (hl : log < w.logs.size) :
    u.callsOf log = w.callsOf log ++ calls := by
  induction hu with
  | start w i g => exact (List.append_nil _).symm
  | @next w v _ i _ g _ y calls _ he _ ih =>
    obtain ⟨args, hrequests, hv⟩ : ∃ args, g.requests = [args] ∧ v = (w.running i).record log args := by
      cases he with
      | repeating _ => cases hg
      | @asking _ f args _ _ hf _ hc =>
        rw [Callable.source?, hf] at hg
        cases hg
        cases hc.unique (calls_recorder _ log result args)
        exact ⟨args, by rw [Callable.requests, hf]; rfl, rfl⟩
    subst hv
    have hsize : log < ((w.running i).record log args).logs.size := by
      rwa [World.record, Array.size_modify]
    have hfollowing : (g.following y).source? = some (.recorder log result) := by
      cases g <;> exact hg
    have hnoted : ((w.running i).record log args).callsOf log = w.callsOf log ++ [args] :=
      World.callsOf_record (w := w.running i) hl args
    have hrest := ih hfollowing hsize
    rw [hrest, hrequests, ← List.append_assoc, ← hnoted]
    rfl

end Unrolls

/-- The calls that a body makes for its element, and those that the bodies after it make, come to values. -/
def Callable.Answered : Callable Value → Prop
  | iterating f _ => ∀ u y, ∃ z v, Calls u f [y] (.value z v)
  | calling f _ => ∀ u, ∃ y v, Calls u f [] (.value y v)
  | repeating _ _ => True
  | _ => False

namespace Callable.Answered

variable {g : Callable Value}

theorem following (h : g.Answered) (y : Value) : (g.following y).Answered := by
  cases g <;> exact h

theorem emits (h : g.Answered) (hs : g.isSpent = false) (w : World) : ∃ y u, Emits w g y u := by
  cases g with
  | iterating f x =>
    obtain ⟨y, u, hc⟩ := h w x
    exact ⟨y, u, .asking rfl hs hc⟩
  | calling f n =>
    obtain ⟨y, u, hc⟩ := h w
    exact ⟨y, u, .asking rfl hs hc⟩
  | repeating x n => exact ⟨x, w, .repeating hs⟩
  | _ => cases h

end Callable.Answered

theorem World.Awaits.exists_unrolls {w : World} {i : Nat} {g : Callable Value} (hw : w.Awaits i g) (hg : g.Answered)
    (k : Nat) :
    ∃ calls ys u j h, Unrolls w i g calls ys u j h ∧ (ys.length = k ∨ ys.length < k ∧ h.isSpent = true) := by
  induction k generalizing w i g with
  | zero => exact ⟨[], [], w, i, g, .start w i g, .inl rfl⟩
  | succ k ih =>
    cases hs : g.isSpent with
    | true => exact ⟨[], [], w, i, g, .start w i g, .inr ⟨Nat.succ_pos k, hs⟩⟩
    | false =>
      obtain ⟨y, u, he⟩ := hg.emits hs (w.running i)
      obtain ⟨calls, ys, v, j, h, hu, hk⟩ := ih (hw.emitted he) (hg.following y)
      refine ⟨_, y :: ys, v, j, h, .next he hu, hk.imp (congrArg Nat.succ) fun ⟨hl, hs⟩ => ?_⟩
      exact ⟨Nat.succ_lt_succ hl, hs⟩

theorem evolution_era : Evolution fun w v => v.era = w.era where
  frames := fun _ _ => rfl
  trans := fun huv hvw => hvw.trans huv
  change := fun c w => by
    cases c with
    | want path =>
      simp only [Change.apply, World.want]
      split <;> rfl
    | _ => rfl
  newCallable := fun _ _ => rfl
  newCell := fun _ _ => rfl
  restore := fun h => h
  abandon := fun _ _ _ h => h
  complete := fun _ _ _ h _ => h

def Refuses (w : World) (g : Callable Value) (e : Failure) (v : World) : Prop :=
  ∃ f args, g.asks? = some (f, args) ∧ g.isSpent = false ∧ Calls w f args (.failure e v)

namespace Refuses

variable {w v : World} {g : Callable Value} {e : Failure}

theorem isGenerator (h : Refuses w g e v) : g.isGenerator = true := by
  obtain ⟨f, args, hg, -⟩ := h
  cases g <;> first | rfl | cases hg

theorem evolves {R : World → World → Prop} (hR : Evolution R) (h : Refuses w g e v) : R w v := by
  obtain ⟨f, args, -, -, hc⟩ := h
  exact hc.evolves hR rfl

theorem calls (h : Refuses w g e v) : Calls w g [] (.failure e v) := by
  obtain ⟨f, args, hg, hs, hc⟩ := h
  simp only [calls_iff, Kernel.call_of_asks hg hs]
  exact Eventually.bind_failure hc

end Refuses

namespace World.Awaits

variable {w v : World} {i : Nat} {g : Callable Value} {e : Failure}

theorem forces_failure (hw : w.Awaits i g) (h : Refuses (w.running i) g e v) :
    Forces w (.lazy i) (.failure e (w.putBack i g v)) := .of_failure (.of_calls hw h.calls)

theorem putBack (hw : w.Awaits i g) (h : Refuses (w.running i) g e v) :
    (w.putBack i g v).Awaits i g ∧ ∃ es, Course w es (w.putBack i g v) := by
  have hpasses : (w.setCell i .running).Passes { v with frames := w.frames } :=
    (World.Passes.of_cells_eq (w := w.setCell i .running) (v := w.running i) rfl).trans
      ((h.evolves evolution_passes).trans (.of_cells_eq rfl))
  have hera : v.era = w.era := h.evolves evolution_era
  obtain ⟨hi, -⟩ := hpasses.begun hw
  refine ⟨(getElem?_setCell_self hi _).trans ?_, (hpasses.abandon hw).2⟩
  rw [← hera]
  rfl

end World.Awaits

namespace Advances

variable {w u u' w' : World} {v r : Value} {xs zs : List Value} {n : Nat} {es : List CellEvent} {e : Failure}

theorem course (h : Advances w v xs u r) : ∃ es, Course w es u := h.taken.course

theorem again (h : Advances w v xs u r) (hc : Course u es u') : Advances u' v xs u' r := by
  induction h with
  | start w v => exact .start u' v
  | next hf hn h ih =>
    obtain ⟨fs, hfs⟩ := h.course
    exact .next (hf.again (hfs.append hc)) hn (ih hc)

theorem taken_append_iff (h : Advances w v xs u r) :
    Taken w v (xs.length + n) (xs ++ zs) w' ↔ Taken u r n zs w' := by
  induction h with
  | start w v => rw [List.length_nil, Nat.zero_add, List.nil_append]
  | next hf hn _ ih =>
    rw [← ih, List.length_cons, Nat.succ_add]
    constructor
    · intro ht
      cases ht with
      | next hf' hn' ht =>
        cases hf.unique hf'
        cases hn.symm.trans hn'
        exact ht
    · exact fun ht => .next hf hn ht

theorem eventually_firstElements_failure (h : Advances w v xs u r) (hf : Forces u r (.failure e u'))
    (hn : xs.length < n) (reversed : List Value) :
    Eventually (fun l => (Kernel.withFuel l).firstElements n reversed v w) (.failure e u') := by
  induction h generalizing n reversed with
  | start w v =>
    obtain ⟨n, rfl⟩ : ∃ m, n = m + 1 := ⟨n - 1, by rw [List.length_nil] at hn; omega⟩
    exact Eventually.bind_failure hf.steps_failure.eventually_uncons
  | next hs hsplit _ ih =>
    rw [List.length_cons] at hn
    obtain ⟨n, rfl⟩ : ∃ m, n = m + 1 := ⟨n - 1, by omega⟩
    refine hs.uncons_iff.mpr ?_
    rw [hsplit]
    exact ih hf (by omega) _

theorem calls_take_failure (h : Advances w v xs u r) (hf : Forces u r (.failure e u')) {k : Int64}
    (hk : xs.length < k.toInt) (hv : v.isSeqable = true) :
    Calls w (.primitive .take) [.int k, v] (.failure e u') := by
  rw [calls_primitive_iff rfl]
  simp only [Kernel.runPrimitive, Kernel.take, Eval.requireInt, Eval.requireSeqable, if_pos hv, pure_bind]
  exact Eventually.bind_failure (h.eventually_firstElements_failure hf (by omega) [])

end Advances

/-- `(repeat n x)` makes a cell, and going through it gives `n` times `x` if `n` is positive. No call is made,
and the counter of each cell is exact. -/
def RepeatsCopies (w : World) (n : Int64) (x : Value) : Prop :=
  Calls w (.primitive .repetition) [.int n, x]
      (.value (.lazy w.cells.size) (w.withCell (.repeating x (some n)))) ∧
    (∀ ys, (∃ w', Yields (w.withCell (.repeating x (some n))) (.lazy w.cells.size) ys w') ↔
      ys = .replicate n.toInt.toNat x) ∧
    ∀ calls ys u j h,
      Unrolls (w.withCell (.repeating x (some n))) w.cells.size (.repeating x (some n)) calls ys u j h →
        calls = [] ∧ ∃ m : Int64, h = .repeating x (some m) ∧ m.toInt = n.toInt - ys.length

/-- `(repeatedly n f)` makes a cell. Each call of `f` is made when its element is reached, and there are `n` of
them, if `n` is positive, once all was gone through. -/
def CallsRepeatedly (w : World) (n : Int64) (identity : Nat) (f : Callable Value) : Prop :=
  Calls w (.primitive .repeatedly) [.int n, .callable identity f]
      (.value (.lazy w.cells.size) (w.withCell (.calling f (some n)))) ∧
    (∀ ys w', Taken (w.withCell (.calling f (some n))) (.lazy w.cells.size) ys.length ys w' ↔
      ∃ j h, Unrolls (w.withCell (.calling f (some n))) w.cells.size (.calling f (some n))
        (.replicate ys.length []) ys w' j h) ∧
    (∀ ys w', Yields (w.withCell (.calling f (some n))) (.lazy w.cells.size) ys w' ↔
      ys.length = n.toInt.toNat ∧ ∃ u j h, Unrolls (w.withCell (.calling f (some n))) w.cells.size
        (.calling f (some n)) (.replicate ys.length []) ys u j h ∧ w' = u.leaveBody j (u.running j) (.list [])) ∧
    ((∀ u, ∃ y v, Calls u f [] (.value y v)) →
      ∃ ys w', Yields (w.withCell (.calling f (some n))) (.lazy w.cells.size) ys w')

/-- `(iterate f x)` makes a cell. Going through it calls `f` on `x` and then on each element, once for the
element after it. -/
def IteratesFrom (w : World) (identity : Nat) (f : Callable Value) (x : Value) : Prop :=
  Calls w (.primitive .iterate) [.callable identity f, x]
      (.value (.lazy w.cells.size) (w.withCell (.iterating f x))) ∧
    (∀ ys w', Taken (w.withCell (.iterating f x)) (.lazy w.cells.size) ys.length ys w' ↔
      ∃ j, Unrolls (w.withCell (.iterating f x)) w.cells.size (.iterating f x)
        (((x :: ys).take ys.length).map ([·])) ys w' j (.iterating f ((x :: ys).getLast (List.cons_ne_nil x ys)))) ∧
    ((∀ u y, ∃ z v, Calls u f [y] (.value z v)) →
      ∀ k, ∃ ys w', ys.length = k ∧ Taken (w.withCell (.iterating f x)) (.lazy w.cells.size) k ys w')

def NotesCalls (w : World) (g : Callable Value) : Prop :=
  ∀ log result, g.source? = some (.recorder log result) → log < w.logs.size → ∀ calls ys u j h,
    Unrolls (w.withCell g) w.cells.size g calls ys u j h → u.callsOf log = w.callsOf log ++ calls

/-- Elements that were given are kept, whether the call for the next fails or not. After a failure that call
is the first to be made when the sequence is gone through again. -/
def KeepsElements (w : World) (g : Callable Value) : Prop :=
  ∀ calls ys u j h, Unrolls (w.withCell g) w.cells.size g calls ys u j h →
    Taken u (.lazy w.cells.size) ys.length ys u ∧
    ∀ e v, Refuses (u.running j) h e v →
      (∀ k : Int64, ys.length < k.toInt →
        Calls (w.withCell g) (.primitive .take) [.int k, .lazy w.cells.size] (.failure e (u.putBack j h v))) ∧
      (u.putBack j h v).Awaits j h ∧
      ∀ zs w', Taken (u.putBack j h v) (.lazy w.cells.size) (ys.length + zs.length) (ys ++ zs) w' ↔
        ∃ calls' j' h', Unrolls (u.putBack j h v) j h calls' zs w' j' h'

-- A counter starts from `n` and was counted down once for each of `k` elements.
theorem exhausted_iff_eq {n m : Int64} {k : Nat} (hk : k ≤ n.toInt.toNat) (hm : m.toInt = n.toInt - k) :
    exhausted (some m) = true ↔ k = n.toInt.toNat := by
  rw [exhausted_iff]
  omega

theorem repeatsCopies (w : World) (n : Int64) (x : Value) : RepeatsCopies w n x := by
  have hw : (w.withCell (.repeating x (some n))).Awaits w.cells.size (.repeating x (some n)) :=
    w.awaits_withCell _
  refine ⟨?_, fun ys => ⟨?_, ?_⟩, fun calls ys u j h hu => ?_⟩
  · exact (calls_primitive_iff rfl).mpr (.of_forall (n := 0) fun _ _ => rfl)
  · rintro ⟨w', hy⟩
    obtain ⟨calls, u, j, h, hu, hs, -⟩ := (hw.yields_iff rfl).mp hy
    obtain ⟨-, hys, hle, m, rfl, hm⟩ := hu.repeating
    rwa [(exhausted_iff_eq hle hm).mp hs] at hys
  · rintro rfl
    obtain ⟨calls, ys, u, j, h, hu, hk⟩ := hw.exists_unrolls trivial n.toInt.toNat
    obtain ⟨-, hys, hle, m, rfl, hm⟩ := hu.repeating
    have hlength : ys.length = n.toInt.toNat := hk.elim id fun hk => (exhausted_iff_eq hle hm).mp hk.2
    have hs : exhausted (some m) = true := (exhausted_iff_eq hle hm).mpr hlength
    rw [hlength] at hys
    exact ⟨_, (hw.yields_iff rfl).mpr ⟨calls, u, j, .repeating x (some m), hys ▸ hu, hs, rfl⟩⟩
  · obtain ⟨hcalls, -, -, hm⟩ := hu.repeating
    exact ⟨hcalls, hm⟩

theorem callsRepeatedly (w : World) (n : Int64) (identity : Nat) (f : Callable Value) :
    CallsRepeatedly w n identity f := by
  have hw : (w.withCell (.calling f (some n))).Awaits w.cells.size (.calling f (some n)) := w.awaits_withCell _
  refine ⟨?_, fun ys w' => ?_, fun ys w' => ?_, fun hf => ?_⟩
  · exact (calls_primitive_iff rfl).mpr (.of_forall (n := 0) fun _ _ => rfl)
  · rw [hw.taken_iff rfl]
    constructor
    · rintro ⟨calls, j, h, hu⟩
      obtain ⟨rfl, -⟩ := hu.calling
      exact ⟨j, h, hu⟩
    · rintro ⟨j, h, hu⟩
      exact ⟨_, j, h, hu⟩
  · rw [hw.yields_iff rfl]
    constructor
    · rintro ⟨calls, u, j, h, hu, hs, hw'⟩
      obtain ⟨rfl, hle, m, rfl, hm⟩ := hu.calling
      exact ⟨(exhausted_iff_eq hle hm).mp hs, u, j, _, hu, hw'⟩
    · rintro ⟨hlength, u, j, h, hu, hw'⟩
      obtain ⟨-, hle, m, rfl, hm⟩ := hu.calling
      exact ⟨_, u, j, _, hu, (exhausted_iff_eq hle hm).mpr hlength, hw'⟩
  · obtain ⟨calls, ys, u, j, h, hu, hk⟩ := hw.exists_unrolls hf n.toInt.toNat
    obtain ⟨-, hle, m, rfl, hm⟩ := hu.calling
    have hs : exhausted (some m) = true := hk.elim (exhausted_iff_eq hle hm).mpr And.right
    exact ⟨ys, _, (hw.yields_iff rfl).mpr ⟨calls, u, j, _, hu, hs, rfl⟩⟩

theorem iteratesFrom (w : World) (identity : Nat) (f : Callable Value) (x : Value) :
    IteratesFrom w identity f x := by
  have hw : (w.withCell (.iterating f x)).Awaits w.cells.size (.iterating f x) := w.awaits_withCell _
  refine ⟨?_, fun ys w' => ?_, fun hf k => ?_⟩
  · exact (calls_primitive_iff rfl).mpr (.of_forall (n := 0) fun _ _ => rfl)
  · rw [hw.taken_iff rfl]
    constructor
    · rintro ⟨calls, j, h, hu⟩
      obtain ⟨rfl, rfl⟩ := hu.iterating
      exact ⟨j, hu⟩
    · rintro ⟨j, hu⟩
      exact ⟨_, j, _, hu⟩
  · obtain ⟨calls, ys, u, j, h, hu, hk⟩ := hw.exists_unrolls hf k
    obtain ⟨-, rfl⟩ := hu.iterating
    have hlength : ys.length = k := hk.elim id fun hk => Bool.noConfusion hk.2
    exact ⟨ys, u, hlength, hlength ▸ (hw.unrolls hu).1.taken⟩

theorem keepsElements (w : World) (g : Callable Value) : KeepsElements w g := by
  intro calls ys u j h hu
  obtain ⟨ha, hj⟩ := (w.awaits_withCell g).unrolls hu
  refine ⟨(ha.again (.start u)).taken, fun e v hr => ?_⟩
  obtain ⟨hback, es, hcourse⟩ := hj.putBack hr
  have hagain : Advances (u.putBack j h v) (.lazy w.cells.size) ys (u.putBack j h v) (.lazy j) := ha.again hcourse
  refine ⟨fun k hk => ha.calls_take_failure (hj.forces_failure hr) hk rfl, hback, fun zs w' => ?_⟩
  rw [hagain.taken_append_iff, hback.taken_iff hr.isGenerator]

theorem notesCalls (w : World) (g : Callable Value) : NotesCalls w g :=
  fun _ _ hg hl _ _ _ _ _ hu => hu.callsOf_recorder hg hl

theorem generated_sequences (w : World) (n : Int64) (x : Value) (identity : Nat) (f : Callable Value) :
    RepeatsCopies w n x ∧ CallsRepeatedly w n identity f ∧ IteratesFrom w identity f x ∧
      ∀ g, NotesCalls w g ∧ KeepsElements w g :=
  ⟨repeatsCopies w n x, callsRepeatedly w n identity f, iteratesFrom w identity f x,
    fun g => ⟨notesCalls w g, keepsElements w g⟩⟩

theorem generated_sequences_failing :
    (∃ w', Yields (World.empty.withCell (.repeating (.str "a") (some (-9223372036854775808)))) (.lazy 0) [] w') ∧
      ∃ v : World, Calls (World.empty.withCell (.iterating (.primitive .increment) (.str "a"))) (.primitive .take)
          [.int 1, .lazy 0] (.failure (.typeMismatch .integer) v) ∧
        v.Awaits 0 (.iterating (.primitive .increment) (.str "a")) := by
  obtain ⟨⟨-, hyields, -⟩, -, -, hboth⟩ :=
    generated_sequences World.empty (-9223372036854775808) (.str "a") 0 (.primitive .increment)
  let w := World.empty.withCell (.iterating (.primitive .increment) (.str "a"))
  have hcall : Calls (w.running 0) (.primitive .increment) [.str "a"]
      (.failure (.typeMismatch .integer) (w.running 0)) :=
    (calls_primitive_iff rfl).mpr ⟨nofun, 0, fun _ _ => rfl⟩
  obtain ⟨-, hkeeps⟩ := hboth (.iterating (.primitive .increment) (.str "a"))
  obtain ⟨hfails, hback, -⟩ := (hkeeps _ _ _ _ _ (.start w 0 _)).2 _ _ ⟨_, _, rfl, rfl, hcall⟩
  exact ⟨(hyields []).mpr (by decide), _, hfails 1 (by decide), hback⟩

end LazyLisp
