import LazyLisp.Proofs.Mapping

namespace LazyLisp

/-- Cons cells and lazy cells lead from a value through these elements to `t`, and the bodies of the lazy
cells leave the second world. -/
inductive Links (t : Value) : World → Value → List Value → World → Prop
  | last (w : World) : Links t w t [] w
  | cons {w u : World} {s : Value} {xs : List Value} (x : Value) : Links t w s xs u →
      Links t w (.cons x s) (x :: xs) u
  | lazy {w v u : World} {i : Nat} {s : Value} {xs : List Value} : Realizes w i (.value s v) → xs ≠ [] →
      Links t v s xs u → Links t w (.lazy i) xs u

def Value.orEmpty (t : Value) : Value := if t.isNil then .list [] else t

inductive Reads : World → Value → List Value → Value → World → Prop
  | done (w : World) (v : Value) : Reads w v [] v w
  | next {w u u' w' : World} {v x v' last : Value} {xs : List Value} :
      Calls w (.primitive .first) [v] (.value x u) → Calls u (.primitive .rest) [v] (.value v' u') →
      Reads u' v' xs last w' → Reads w v (x :: xs) last w'

theorem Kernel.destructureItems_symbol (k : Kernel) {name : String} (hn : name ≠ "&") (whole left : Value)
    (names : List String) :
    k.destructureItems whole left ((name :: names).map .symbol) = k.nextElement left >>= fun next =>
      Eval.bindName name next.1 >>= fun _ => k.destructureItems whole next.2 (names.map .symbol) := by
  have hm : (Value.symbol name).marker? = none := if_neg hn
  cases names with
  | nil => simp only [List.map_cons, List.map_nil, destructureItems, hm, destructure, bind_pure_unit]
  | cons other names => simp only [List.map_cons, destructureItems, hm, destructure]

namespace Links

variable {t s x : Value} {w u : World} {xs : List Value}

theorem of_nil (h : Links t w s [] u) : s = t ∧ u = w := by
  cases h with
  | last => exact ⟨rfl, rfl⟩
  | lazy _ hne _ => exact absurd rfl hne

theorem forces (h : Links t w s (x :: xs) u) :
    ∃ rest v, Forces w s (.value (.cons x rest) v) ∧ Links t v rest xs u := by
  generalize hys : x :: xs = ys at h
  induction h with
  | last => cases hys
  | @cons w _ rest _ _ h _ =>
    cases hys
    exact ⟨rest, w, .of_not_lazy (v := .cons x rest) nofun w, h⟩
  | lazy hr _ _ ih =>
    obtain ⟨rest, v, hf, h⟩ := ih hys
    exact ⟨rest, v, (Forces.lazy_iff hr).mpr hf, h⟩

theorem isSequential (h : Links t w s xs u) (hx : xs ≠ []) : s.isSequential = true := by
  cases h with
  | last => exact absurd rfl hx
  | cons => rfl
  | lazy => rfl

theorem isSeqable (h : Links t w s xs u) (ht : t.isSeqable = true) : s.isSeqable = true := by
  by_cases hx : xs = []
  · subst hx
    rw [h.of_nil.1]
    exact ht
  · exact Value.isSeqable_of_isSequential (h.isSequential hx)

theorem taken (h : Links t w s xs u) : Taken w s xs.length xs u := by
  induction xs generalizing w s with
  | nil =>
    obtain ⟨rfl, rfl⟩ := h.of_nil
    exact .enough u s
  | cons x xs ih =>
    obtain ⟨rest, v, hf, h⟩ := h.forces
    exact .next hf rfl (ih h)

theorem calls_take (h : Links t w s xs u) (ht : t.isSeqable = true) {k : Int64} (hk : k.toInt = xs.length) :
    Calls w (.primitive .take) [.int k, s] (.value (.list xs) u) := by
  refine Taken.calls_take ?_ (h.isSeqable ht)
  rw [hk]
  exact h.taken

theorem orEmpty_of_ne_nil (h : Links t w s xs u) (hx : xs ≠ []) : s.orEmpty = s := by
  cases h with
  | last => exact absurd rfl hx
  | cons => rfl
  | lazy => rfl

theorem reads (h : Links t w s xs u) (hx : xs ≠ []) : Reads w s xs t.orEmpty u := by
  induction xs generalizing w s with
  | nil => exact absurd rfl hx
  | cons x xs ih =>
    obtain ⟨rest, v, hf, h⟩ := h.forces
    have hfirst : Calls w (.primitive .first) [s] (.value x v) := hf.calls_first rfl
    have htail : (Value.cons x rest).tail = rest.orEmpty := by
      cases rest with
      | atom a => cases a <;> rfl
      | _ => rfl
    have hrest : Calls v (.primitive .rest) [s] (.value rest.orEmpty v) :=
      htail ▸ (hf.again (.start v)).calls_rest rfl
    by_cases hxs : xs = []
    · subst hxs
      obtain ⟨rfl, rfl⟩ := h.of_nil
      exact .next hfirst hrest (.done _ _)
    · rw [h.orEmpty_of_ne_nil hxs] at hrest
      exact .next hfirst hrest (ih h hxs)

theorem destructureItems {ss : List Scope} {fs : List Frame} {sc : Scope} {names : List String}
    (h : Links t w s xs u) (hl : names.length = xs.length) (hn : "&" ∉ names) (whole : Value) :
    Eventually (fun l => (Kernel.withFuel l).destructureItems whole s (names.map .symbol) (w.inScope ss fs sc))
      (.value () (u.inScope ss fs (sc.insertAll (names.zip xs)))) := by
  induction xs generalizing w s sc names with
  | nil =>
    obtain rfl : names = [] := List.eq_nil_of_length_eq_zero hl
    obtain ⟨-, rfl⟩ := h.of_nil
    exact .pure () _
  | cons x xs ih =>
    obtain ⟨rest, v, hf, h⟩ := h.forces
    cases names with
    | nil => cases hl
    | cons name names =>
      rw [List.mem_cons, not_or] at hn
      have hnext : Eventually (fun l => (Kernel.withFuel l).nextElement s (w.inScope ss fs sc))
          (.value (x, rest) (v.inScope ss fs sc)) :=
        (hf.withFrames ((sc :: ss) :: fs)).uncons_iff.mpr (.pure (x, rest) _)
      have hbind : Eventually (fun _ => Eval.bindName name x (v.inScope ss fs sc))
          (.value () (v.inScope ss fs (sc.insert name x))) := .of_forall (n := 0) fun _ _ => rfl
      simp only [Kernel.destructureItems_symbol _ (Ne.symm hn.1)]
      refine (Eventually.bind_iff hnext).mpr ((Eventually.bind_iff hbind).mpr ?_)
      exact ih h (Nat.succ.inj hl) hn.2

theorem destructure {ss : List Scope} {fs : List Frame} {sc : Scope} {names : List String}
    (h : Links t w s xs u) (hl : names.length = xs.length) (hn : "&" ∉ names) (hs : s.isSequential = true) :
    Eventually (fun l => (Kernel.withFuel l).destructure (.vector (names.map .symbol)) s (w.inScope ss fs sc))
      (.value () (u.inScope ss fs (sc.insertAll (names.zip xs)))) := by
  simp only [Kernel.destructure, if_pos hs]
  exact h.destructureItems hl hn s

end Links

section

variable {ι β : Type}

/-- In each of several runs, one for each choice of `t`, code led from `w` to `v` and did not touch `t`: as far
as can be seen it did the same whatever `t` is, and if `t` is a lazy sequence, its cell is as it was. -/
structure Spares (saw : World → β) (t : ι → Value) (w v : ι → World) : Prop where
  alike : (∀ i j, saw (w i) = saw (w j)) → ∀ i j, saw (v i) = saw (v j)
  cell : ∀ i n, t i = .lazy n → (v i).cells[n]? = (w i).cells[n]?

/-- Whatever `t` is, cons cells and lazy cells lead to it through the same elements, and no body of the lazy
cells touches it. -/
inductive LeadsTo (saw : World → β) (t : ι → Value) :
    (ι → World) → (ι → Value) → List Value → (ι → World) → Prop
  | last (w : ι → World) : LeadsTo saw t w t [] w
  | cons {w u : ι → World} {s : ι → Value} {xs : List Value} (x : Value) : LeadsTo saw t w s xs u →
      LeadsTo saw t w (fun i => .cons x (s i)) (x :: xs) u
  | lazy {w v u : ι → World} {cell : ι → Nat} {s : ι → Value} {xs : List Value} :
      (∀ i, Realizes (w i) (cell i) (.value (s i) (v i))) → Spares saw t w v → xs ≠ [] →
      LeadsTo saw t v s xs u → LeadsTo saw t w (fun i => .lazy (cell i)) xs u

namespace LeadsTo

variable {saw : World → β} {t s : ι → Value} {w u : ι → World} {xs : List Value}

theorem links (h : LeadsTo saw t w s xs u) (i : ι) : Links (t i) (w i) (s i) xs (u i) := by
  induction h with
  | last w => exact .last (w i)
  | cons x _ ih => exact .cons x ih
  | lazy hr _ hne _ ih => exact .lazy (hr i) hne ih

theorem spares (h : LeadsTo saw t w s xs u) : Spares saw t w u := by
  induction h with
  | last w => exact ⟨fun ha => ha, fun _ _ _ => rfl⟩
  | cons _ _ ih => exact ih
  | lazy _ hv _ _ ih =>
    refine ⟨fun ha => ih.alike (hv.alike ha), fun i n hn => ?_⟩
    rw [ih.cell i n hn, hv.cell i n hn]

end LeadsTo

/-- The consumers of the first elements of a sequence come to the same whatever the tail `t` is. -/
theorem consumers_stop {saw : World → β} {t s : ι → Value} {w u : ι → World} {xs : List Value}
    (h : LeadsTo saw t w s xs u) (ht : ∀ i, (t i).isSeqable = true) :
    Spares saw t w u ∧ ∀ i,
      (∀ k : Int64, k.toInt = xs.length →
        Calls (w i) (.primitive .take) [.int k, s i] (.value (.list xs) (u i))) ∧
      (∀ (names : List String) (ss : List Scope) (fs : List Frame) (sc : Scope), names.length = xs.length →
        "&" ∉ names → (s i).isSequential = true →
        Eventually (fun l => (Kernel.withFuel l).destructure (.vector (names.map .symbol)) (s i)
          ((w i).inScope ss fs sc)) (.value () ((u i).inScope ss fs (sc.insertAll (names.zip xs))))) ∧
      (xs ≠ [] → (s i).isSequential = true ∧ Reads (w i) (s i) xs (t i).orEmpty (u i)) := by
  refine ⟨h.spares, fun i => ?_⟩
  have hl : Links (t i) (w i) (s i) xs (u i) := h.links i
  refine ⟨fun k hk => hl.calls_take (ht i) hk, ?_, fun hx => ⟨hl.isSequential hx, hl.reads hx⟩⟩
  intro names ss fs sc hlength hn hs
  exact hl.destructure hlength hn hs

end

def tailWorld (c : CellState) : World :=
  { World.empty with
    namespaces := Namespaces.empty.define "cons" (.callable 0 (.primitive .cons))
    nextIdentity := 1
    cells := #[⟨0, .unrealized (lazyBody (Bindings.empty.insert "t" (.lazy 1))
      (callForm "cons" [.int 6, .symbol "t"]))⟩, ⟨0, c⟩] }

theorem consumers_stop_unrealized :
    (∀ c, Calls (tailWorld c) (.primitive .take) [.int 2, .cons (.int 5) (.lazy 0)] (.value
        (.list [.int 5, .int 6]) ((tailWorld c).setCell 0 (.realized (.cons (.int 6) (.lazy 1)))))) ∧
      (∀ c, Reads (tailWorld c) (.cons (.int 5) (.lazy 0)) [.int 5, .int 6] (.lazy 1)
        ((tailWorld c).setCell 0 (.realized (.cons (.int 6) (.lazy 1))))) := by
  have hrealizes (c : CellState) : Realizes (tailWorld c) 0 (.value (.cons (.int 6) (.lazy 1))
      ((tailWorld c).setCell 0 (.realized (.cons (.int 6) (.lazy 1))))) :=
    Eventually.of_value (n := 6) (fun l l' hl => Kernel.below_realize hl 0 (tailWorld c)) rfl
  have hspares : Spares World.output (fun _ => .lazy 1) tailWorld
      fun c => (tailWorld c).setCell 0 (.realized (.cons (.int 6) (.lazy 1))) := by
    refine ⟨fun _ _ _ => rfl, fun c n hn => ?_⟩
    cases hn
    exact World.getElem?_setCell_of_ne _ (by decide) _
  have hleads : LeadsTo World.output (fun _ => .lazy 1) tailWorld (fun _ => .cons (.int 5) (.lazy 0))
      [.int 5, .int 6] fun c => (tailWorld c).setCell 0 (.realized (.cons (.int 6) (.lazy 1))) :=
    .cons (.int 5) (.lazy hrealizes hspares (List.cons_ne_nil _ _) (.cons (.int 6) (.last _)))
  obtain ⟨-, hstop⟩ := consumers_stop hleads fun _ => rfl
  exact ⟨fun c => (hstop c).1 2 rfl, fun c => ((hstop c).2.2 (List.cons_ne_nil _ _)).2⟩

end LazyLisp
