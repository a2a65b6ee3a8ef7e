import LazyLisp.Proofs.Standard

namespace LazyLisp

namespace Yields

theorem vector (w : World) (xs : List Value) : Yields w (.vector xs) xs w := by
  induction xs with
  | nil => exact .done (.of_not_lazy (v := .vector []) nofun w) rfl rfl
  | cons x xs ih => exact .next (.of_not_lazy (v := .vector (x :: xs)) nofun w) rfl ih

theorem map (w : World) (es : List (Value × Value)) : Yields w (.map es) (es.map .entry) w := by
  induction es with
  | nil => exact .done (.of_not_lazy (v := .map []) nofun w) rfl rfl
  | cons e es ih => exact .next (.of_not_lazy (v := .map (e :: es)) nofun w) rfl ih

end Yields

def Value.tail : Value → Value
  | .cons _ .nil => .list []
  | .cons _ rest => rest
  | .list xs => .list xs.tail
  | .vector xs => .list xs.tail
  | .map es => .list (es.map .entry).tail
  | _ => .list []

namespace Forces

variable {w u : World} {v s x rest : Value}

theorem isSeqable (h : Forces w v (.value s u)) (hs : s.isSeqable = true) : v.isSeqable = true := by
  by_cases hv : ∃ i, v = .lazy i
  · obtain ⟨i, rfl⟩ := hv
    rfl
  · cases h.unique (Forces.of_not_lazy (fun i hi => hv ⟨i, hi⟩) w)
    exact hs

theorem calls_seq (h : Forces w v (.value s u)) (hs : s.isSeqable = true) :
    ∃ t, Calls w (.primitive .seq) [v] (.value t u) ∧ t.truthy = s.split?.isSome := by
  have hlist (xs : List Value) : (Kernel.listOrNil xs).truthy = (Value.list xs).split?.isSome := by
    cases xs <;> rfl
  have harity : Primitive.seq.arity.accepts [v].length = true := rfl
  simp only [calls_primitive_iff harity, Kernel.runPrimitive]
  cases s with
  | atom a =>
    cases a with
    | nil => exact ⟨.nil, h.force_iff.mpr (.pure _ u), rfl⟩
    | _ => cases hs
  | cons x rest => exact ⟨.cons x rest, h.force_iff.mpr (.pure _ u), rfl⟩
  | list xs => exact ⟨_, h.force_iff.mpr (.pure _ u), hlist xs⟩
  | vector xs =>
    refine ⟨Kernel.listOrNil xs, h.force_iff.mpr ?_, (hlist xs).trans (by cases xs <;> rfl)⟩
    exact (Eventually.bind_iff (Yields.vector u xs).eventually_collect).mpr (.pure _ u)
  | map es =>
    refine ⟨Kernel.listOrNil (es.map .entry), h.force_iff.mpr ?_, (hlist _).trans (by cases es <;> rfl)⟩
    exact (Eventually.bind_iff (Yields.map u es).eventually_collect).mpr (.pure _ u)
  | lazy i => exact absurd rfl (h.not_lazy i)
  | callable i f => cases hs

theorem calls_first (h : Forces w v (.value s u)) (hn : s.split? = some (x, rest)) :
    Calls w (.primitive .first) [v] (.value x u) := by
  rw [calls_primitive_iff rfl]
  simp only [Kernel.runPrimitive, Kernel.first, Eval.requireSeqable,
    if_pos (h.isSeqable (Value.isSeqable_of_split? hn)), pure_bind]
  refine h.uncons_iff.mpr ?_
  rw [hn]
  exact .pure x u

theorem calls_rest (h : Forces w v (.value s u)) (hs : s.isSeqable = true) :
    Calls w (.primitive .rest) [v] (.value s.tail u) := by
  rw [calls_primitive_iff rfl]
  refine h.force_iff.mpr ?_
  cases s with
  | atom a =>
    cases a with
    | nil => exact (Yields.done (.of_not_lazy (v := .nil) nofun u) rfl rfl : Yields u .nil [] u).eventually_tail
    | _ => cases hs
  | cons x rest =>
    cases rest with
    | atom a => cases a <;> exact .pure _ u
    | _ => exact .pure _ u
  | list xs => exact (Yields.list u xs).eventually_tail
  | vector xs => exact (Yields.vector u xs).eventually_tail
  | map es => exact (Yields.map u es).eventually_tail
  | lazy i => exact absurd rfl (h.not_lazy i)
  | callable i f => cases hs

end Forces

/-- A function of the library that makes, for each value, a lazy sequence with one form as its body. `kept` are
the bindings that the form needs, `scopes` those under which `f` is called on an element, and `emit` tells
what is put in the sequence for an element and what `f` gave. -/
structure Loop where
  names : List String
  form : Value
  f : Callable Value
  kept : Value → Scope
  scopes : Value → Value → Frame
  emit : Value → Value → Option Value

namespace Loop

def body (L : Loop) (v : Value) : Callable Value := lazyBody (L.kept v) L.form

def made (L : Loop) (w : World) (v : Value) : World := (w.addCell (L.body v)).2

def link (emitted : Option Value) (others : Value) : Value :=
  match emitted with
  | some z => .cons z others
  | none => others

def next (L : Loop) (w : World) (i : Nat) (emitted : Option Value) (others : Value) (u : World) : World :=
  w.leaveBody i (u.addCell (L.body others)).2 (link emitted (.lazy u.cells.size))

/-- The body of cell `i` realizes `v`, which has the first element `x`, and calls `f` on it. -/
structure Looks (L : Loop) (w : World) (i : Nat) (v s x y : Value) (u u' : World) : Prop where
  forces : Forces (w.inBody i (L.kept v)) v (.value s u)
  first : ∃ rest, s.split? = some (x, rest)
  calls : Calls { u with frames := [L.scopes v x, []] } L.f [x] (.value y u')
  knows : u.Knows L.names
  knows' : u'.Knows L.names

structure Sound (L : Loop) : Prop where
  ended : ∀ {w u : World} {i : Nat} {v s : Value}, w.Knows L.names →
    w.cells[i]? = some ⟨w.era, .unrealized (L.body v)⟩ → Forces (w.inBody i (L.kept v)) v (.value s u) →
    s.isSeqable = true → s.split? = none → Realizes w i (.value (.list []) (w.leaveBody i u (.list [])))
  next : ∀ {w u u' : World} {i : Nat} {v s x y : Value}, w.Knows L.names →
    w.cells[i]? = some ⟨w.era, .unrealized (L.body v)⟩ → L.Looks w i v s x y u u' →
    Realizes w i (.value (link (L.emit x y) (.lazy u'.cells.size)) (L.next w i (L.emit x y) s.tail u'))

end Loop

def othersForm (name parameter : String) : Value :=
  callForm name [.symbol parameter, callForm "rest" [.symbol "coll"]]

def whenSeqForm (form : Value) : Value := callForm "when" [callForm "seq" [.symbol "coll"], form]

section

variable {w u : World} {names : List String} {v s form x : Value} {r : Outcome Value}

theorem evals_whenSeq (hw : w.Sees names) (hn : "when" ∈ names ∧ "seq" ∈ names)
    (hcoll : w.resolve "coll" = .ok v) (hv : Forces w v (.value s u)) (hs : s.isSeqable = true)
    (h : if s.split?.isSome then Evals u form r else r = .value .nil u) : Evals w (whenSeqForm form) r := by
  obtain ⟨t, ht, htruthy⟩ := hv.calls_seq hs
  have hseq : Evals w (callForm "seq" [.symbol "coll"]) (.value t u) :=
    .function (hw.primitive .seq hn.2) (.cons (.symbol hcoll) (.nil w)) rfl ht
  refine .guarded (hw.special .guarded hn.1) hseq ?_
  rwa [htruthy]

theorem evals_first {rest : Value} (hw : w.Sees names) (hn : "first" ∈ names) (hcoll : w.resolve "coll" = .ok v)
    (hv : Forces w v (.value s w)) (hx : s.split? = some (x, rest)) :
    Evals w (callForm "first" [.symbol "coll"]) (.value x w) :=
  .function (hw.primitive .first hn) (.cons (.symbol hcoll) (.nil w)) rfl (hv.calls_first hx)

theorem evals_others {name parameter : String} {c : Closure Value} {g : Value} (hw : w.Sees names)
    (hn : "rest" ∈ names) (hc : w.Means name (.closure c)) (hg : w.resolve parameter = .ok g)
    (hcoll : w.resolve "coll" = .ok v) (hv : Forces w v (.value s w)) (hs : s.isSeqable = true)
    (h : Calls w (.closure c) [g, s.tail] r) : Evals w (othersForm name parameter) r := by
  have hrest : Evals w (callForm "rest" [.symbol "coll"]) (.value s.tail w) :=
    .function (hw.primitive .rest hn) (.cons (.symbol hcoll) (.nil w)) rfl (hv.calls_rest hs)
  exact .function hc (.cons (.symbol hg) (.cons hrest (.nil w))) rfl h

theorem World.withFrames_eq {fs : List Frame} (h : w.frames = fs) : { w with frames := fs } = w := by
  subst h
  rfl

theorem World.withFrames_popScope (w : World) (fs : List Frame) :
    { w.popScope with frames := fs } = { w with frames := fs } := by
  unfold popScope
  cases w.frames <;> rfl

end

namespace Loop

theorem asSequence?_link (emitted : Option Value) (j : Nat) :
    (link emitted (.lazy j)).asSequence? = some (link emitted (.lazy j)) := by
  cases emitted <;> rfl

theorem sound_of_inner {L : Loop} {inner : Value} (hform : L.form = whenSeqForm inner)
    (hnames : "when" ∈ L.names ∧ "seq" ∈ L.names)
    (hsees : ∀ {w : World} {v : Value}, w.Knows L.names → w.frames = [[L.kept v], []] →
      w.Sees L.names ∧ w.resolve "coll" = .ok v)
    (hinner : ∀ {u u' : World} {v s x y rest : Value}, u.Knows L.names → u'.Knows L.names →
      u.frames = [[L.kept v], []] → Forces u v (.value s u) → s.split? = some (x, rest) →
      Calls { u with frames := [L.scopes v x, []] } L.f [x] (.value y u') →
      ∃ w', Evals u inner (.value (link (L.emit x y) (.lazy u'.cells.size)) w') ∧
        ∀ fs, { w' with frames := fs } = { (u'.addCell (L.body s.tail)).2 with frames := fs }) : L.Sound := by
  constructor
  · intro w u i v s hw hc hv hs hn
    obtain ⟨hb, hcoll⟩ := hsees (w := w.inBody i (L.kept v)) hw rfl
    have hwhen : Evals (w.inBody i (L.kept v)) L.form (.value .nil u) := by
      rw [hform]
      exact evals_whenSeq hb hnames hcoll hv hs (by rw [hn]; rfl)
    exact .of_evals hc hwhen rfl
  · rintro w u u' i v s x y hw hc ⟨hv, ⟨rest, hn⟩, hy, hu, hu'⟩
    obtain ⟨hb, hcoll⟩ := hsees (w := w.inBody i (L.kept v)) hw rfl
    obtain ⟨w', hlink, hw'⟩ := hinner hu hu' hv.frames_eq (hv.again (.start u)) hn hy
    have hwhen : Evals (w.inBody i (L.kept v)) L.form
        (.value (link (L.emit x y) (.lazy u'.cells.size)) w') := by
      rw [hform]
      exact evals_whenSeq hb hnames hcoll hv (Value.isSeqable_of_split? hn) (by rw [hn]; exact hlink)
    have h := Realizes.of_evals hc hwhen (asSequence?_link _ _)
    rwa [World.leaveBody, hw'] at h

end Loop

def mapInner : Value :=
  callForm "cons" [callForm "f" [callForm "first" [.symbol "coll"]], othersForm "map" "f"]

def mapFunction : Closure Value :=
  ⟨"map", .exactly 2, [.symbol "f", .symbol "coll"], [callForm "lazy-seq" [whenSeqForm mapInner]], .empty, false⟩

theorem definition?_map : Prelude.definition? Prelude.map = some mapFunction := rfl

def mapNames : List String := ["when", "seq", "cons", "first", "map", "rest", "lazy-seq"]

def mapLoop (identity : Nat) (f : Callable Value) : Loop where
  names := mapNames
  form := whenSeqForm mapInner
  f := f
  kept := fun v => ⟨[("coll", v), ("f", .callable identity f)]⟩
  scopes := fun v _ => [⟨[("coll", v), ("f", .callable identity f)]⟩]
  emit := fun _ y => some y

section

variable {w u : World} {v s x y rest : Value} {identity : Nat} {f : Callable Value}

theorem calls_map (identity : Nat) (f : Callable Value) (hw : w.Knows mapNames) (v : Value) :
    Calls w (.closure mapFunction) [.callable identity f, v]
      (.value (.lazy w.cells.size) (w.addCell ((mapLoop identity f).body v)).2) := by
  refine calls_closure _ [.position "f", .position "coll"] rfl rfl (by decide) rfl rfl (.delay _ ?_)
  have hs : (w.pushFrame ⟨[("f", .callable identity f), ("coll", v)]⟩).Sees mapNames :=
    .of_frames ["f", "coll"] hw rfl rfl (by decide)
  exact hs.special .delay (by decide)

theorem sees_map (hk : w.Knows mapNames) (hw : w.frames = [[(mapLoop identity f).kept v], []]) :
    w.Sees mapNames ∧ w.resolve "coll" = .ok v :=
  ⟨.of_frames ["coll", "f"] hk hw rfl (by decide), World.resolve_of_frames hw (by decide +kernel) rfl⟩

theorem evals_mapInner (hf : f.isFunction = true) (hw : w.Knows mapNames) (hu : u.Knows mapNames)
    (hframes : w.frames = [[(mapLoop identity f).kept v], []]) (hv : Forces w v (.value s w))
    (hn : s.split? = some (x, rest)) (hy : Calls w f [x] (.value y u)) :
    Evals w mapInner (.value (.cons y (.lazy u.cells.size)) (u.addCell ((mapLoop identity f).body s.tail)).2) := by
  obtain ⟨hsees, hcoll⟩ := sees_map hw hframes
  have hframes' : u.frames = [[(mapLoop identity f).kept v], []] :=
    (hy.frames_eq (by rw [hframes]; exact nofun)).trans hframes
  obtain ⟨hsees', hcoll'⟩ := sees_map hu hframes'
  have hg {w : World} (hw : w.frames = [[(mapLoop identity f).kept v], []]) :
      w.resolve "f" = .ok (.callable identity f) := World.resolve_of_frames hw (by decide +kernel) rfl
  obtain ⟨-, es, hes⟩ := hy.passes
  have hcall : Evals w (callForm "f" [callForm "first" [.symbol "coll"]]) (.value y u) :=
    .function ⟨identity, hg hframes⟩ (.cons (evals_first hsees (by decide) hcoll hv hn) (.nil w)) hf hy
  have hothers := evals_others hsees' (by decide)
    (hsees'.closure (by simp [Prelude.forms]) definition?_map (by decide)) (hg hframes') hcoll' (hv.again hes)
    (Value.isSeqable_of_split? hn) (calls_map identity f hu s.tail)
  exact .function (hsees.primitive .cons (by decide)) (.cons hcall (.cons hothers (.nil _))) rfl
    (calls_cons_lazy _ y u.cells.size)

end

theorem Loop.sound_map {identity : Nat} {f : Callable Value} (hf : f.isFunction = true) :
    (mapLoop identity f).Sound := by
  have hnames : "when" ∈ mapNames ∧ "seq" ∈ mapNames := by decide
  refine sound_of_inner rfl hnames sees_map fun {u u' v s x y rest} hu hu' hframes hv hn hy => ?_
  have hself : { u with frames := [(mapLoop identity f).scopes v x, []] } = u := World.withFrames_eq hframes
  rw [hself] at hy
  exact ⟨_, evals_mapInner hf hu hu' hframes hv hn hy, fun _ => rfl⟩

def filterChoice : Value :=
  callForm "if" [callForm "pred" [.symbol "x"],
    callForm "cons" [.symbol "x", othersForm "filter" "pred"], othersForm "filter" "pred"]

def filterInner : Value := callForm "let" [.vector [.symbol "x", callForm "first" [.symbol "coll"]], filterChoice]

def filterFunction : Closure Value :=
  ⟨"filter", .exactly 2, [.symbol "pred", .symbol "coll"], [callForm "lazy-seq" [whenSeqForm filterInner]], .empty,
    false⟩

theorem definition?_filter : Prelude.definition? Prelude.filter = some filterFunction := rfl

def filterNames : List String := ["when", "seq", "let", "first", "if", "cons", "filter", "rest", "lazy-seq"]

def filterLoop (identity : Nat) (f : Callable Value) : Loop where
  names := filterNames
  form := whenSeqForm filterInner
  f := f
  kept := fun v => ⟨[("coll", v), ("pred", .callable identity f)]⟩
  scopes := fun v x => [⟨[("x", x)]⟩, ⟨[("coll", v), ("pred", .callable identity f)]⟩]
  emit := fun x y => if y.truthy then some x else none

section

variable {w u : World} {v s x y rest : Value} {identity : Nat} {f : Callable Value}

theorem calls_filter (identity : Nat) (f : Callable Value) (hw : w.Knows filterNames) (v : Value) :
    Calls w (.closure filterFunction) [.callable identity f, v]
      (.value (.lazy w.cells.size) (w.addCell ((filterLoop identity f).body v)).2) := by
  refine calls_closure _ [.position "pred", .position "coll"] rfl rfl (by decide) rfl rfl (.delay _ ?_)
  have hs : (w.pushFrame ⟨[("pred", .callable identity f), ("coll", v)]⟩).Sees filterNames :=
    .of_frames ["pred", "coll"] hw rfl rfl (by decide)
  exact hs.special .delay (by decide)

theorem sees_filter (hk : w.Knows filterNames) (hw : w.frames = [[(filterLoop identity f).kept v], []]) :
    w.Sees filterNames ∧ w.resolve "coll" = .ok v :=
  ⟨.of_frames ["coll", "pred"] hk hw rfl (by decide), World.resolve_of_frames hw (by decide +kernel) rfl⟩

theorem evals_filterChoice (hf : f.isFunction = true) (hw : w.Knows filterNames) (hu : u.Knows filterNames)
    (hframes : w.frames = [(filterLoop identity f).scopes v x, []]) (hv : Forces w v (.value s w))
    (hs : s.isSeqable = true) (hy : Calls w f [x] (.value y u)) :
    Evals w filterChoice (.value (Loop.link ((filterLoop identity f).emit x y) (.lazy u.cells.size))
      (u.addCell ((filterLoop identity f).body s.tail)).2) := by
  have hframes' : u.frames = [(filterLoop identity f).scopes v x, []] :=
    (hy.frames_eq (by rw [hframes]; exact nofun)).trans hframes
  have hsees {w : World} (hk : w.Knows filterNames) (hw : w.frames = [(filterLoop identity f).scopes v x, []]) :
      w.Sees filterNames := .of_frames ["x", "coll", "pred"] hk hw rfl (by decide)
  have hg {w : World} (hw : w.frames = [(filterLoop identity f).scopes v x, []]) :
      w.resolve "pred" = .ok (.callable identity f) := World.resolve_of_frames hw (by decide +kernel) rfl
  have hx {w : World} (hw : w.frames = [(filterLoop identity f).scopes v x, []]) :
      Evals w (.symbol "x") (.value x w) := .bound hw (by decide +kernel) rfl
  obtain ⟨-, es, hes⟩ := hy.passes
  have hcall : Evals w (callForm "pred" [.symbol "x"]) (.value y u) :=
    .function ⟨identity, hg hframes⟩ (.cons (hx hframes) (.nil w)) hf hy
  have hothers := evals_others (hsees hu hframes') (by decide)
    ((hsees hu hframes').closure (by simp [Prelude.forms]) definition?_filter (by decide)) (hg hframes')
    (World.resolve_of_frames hframes' (by decide +kernel) rfl) (hv.again hes) hs (calls_filter identity f hu s.tail)
  refine .conditional _ _ ((hsees hw hframes).special .conditional (by decide)) hcall ?_
  cases hy : y.truthy with
  | true =>
    simp only [filterLoop, hy]
    exact .function ((hsees hu hframes').primitive .cons (by decide)) (.cons (hx hframes') (.cons hothers (.nil _)))
      rfl (calls_cons_lazy _ x u.cells.size)
  | false =>
    simp only [filterLoop, hy]
    exact hothers

theorem evals_filterInner (hf : f.isFunction = true) (hw : w.Knows filterNames) (hu : u.Knows filterNames)
    (hframes : w.frames = [[(filterLoop identity f).kept v], []]) (hv : Forces w v (.value s w))
    (hn : s.split? = some (x, rest))
    (hy : Calls { w with frames := [(filterLoop identity f).scopes v x, []] } f [x] (.value y u)) :
    Evals w filterInner (.value (Loop.link ((filterLoop identity f).emit x y) (.lazy u.cells.size))
      (u.addCell ((filterLoop identity f).body s.tail)).2.popScope) := by
  let opened : World := { w with frames := [[.empty, (filterLoop identity f).kept v], []] }
  have hpush : w.pushScope = opened := by
    rw [World.pushScope_eq, hframes]
    rfl
  have hopened : opened.Sees filterNames := .of_frames ["coll", "pred"] hw rfl rfl (by decide)
  have hfirst : Evals w.pushScope (callForm "first" [.symbol "coll"]) (.value x opened) := by
    rw [hpush]
    exact evals_first hopened (by decide) (World.resolve_of_frames rfl (by decide +kernel) rfl) (hv.withFrames _) hn
  have hbind : Eventually (fun l => (Kernel.withFuel l).destructure (.symbol "x") x opened)
      (.value () { w with frames := [(filterLoop identity f).scopes v x, []] }) :=
    .of_forall (n := 0) fun l _ => rfl
  have hchoice := evals_filterChoice (w := { w with frames := [(filterLoop identity f).scopes v x, []] }) hf hw hu rfl
    (hv.withFrames _) (Value.isSeqable_of_split? hn) hy
  exact .binding ((sees_filter hw hframes).1.special .binding (by decide)) hfirst hbind hchoice

end

theorem Loop.sound_filter {identity : Nat} {f : Callable Value} (hf : f.isFunction = true) :
    (filterLoop identity f).Sound := by
  have hnames : "when" ∈ filterNames ∧ "seq" ∈ filterNames := by decide
  refine sound_of_inner rfl hnames sees_filter fun hu hu' hframes hv hn hy => ?_
  exact ⟨_, evals_filterInner hf hu hu' hframes hv hn hy, World.withFrames_popScope _⟩

/-- A run of a loop, from the lazy sequence in cell `i` for the value `v` on, until `n` elements were put in the
sequence or `v` has come to its end: the elements on which `f` was called and what it gave, in order. Between
the calls nothing happens but that `v` is realized and that the cells of the loop are kept. -/
inductive Visits (L : Loop) : World → Nat → Value → Nat → List (Value × Value) → World → Prop
  | enough (w : World) (i : Nat) (v : Value) : Visits L w i v 0 [] w
  | ended {w u : World} {i n : Nat} {v s : Value} : Forces (w.inBody i (L.kept v)) v (.value s u) →
      s.isSeqable = true → s.split? = none → Visits L w i v (n + 1) [] (w.leaveBody i u (.list []))
  | emitted {w u u' w' : World} {i n : Nat} {v s x y z : Value} {cs : List (Value × Value)} :
      L.Looks w i v s x y u u' → L.emit x y = some z →
      Visits L (L.next w i (some z) s.tail u') u'.cells.size s.tail n cs w' →
      Visits L w i v (n + 1) ((x, y) :: cs) w'
  | skipped {w u u' w' : World} {i n : Nat} {v s x y : Value} {cs : List (Value × Value)} :
      L.Looks w i v s x y u u' → L.emit x y = none →
      Visits L (L.next w i none s.tail u') u'.cells.size s.tail (n + 1) cs w' →
      Visits L w i v (n + 1) ((x, y) :: cs) w'

namespace Loop

def results (L : Loop) (cs : List (Value × Value)) : List Value := cs.filterMap fun c => L.emit c.1 c.2

section

variable {L : Loop} {x y z : Value}

theorem results_cons_some (hz : L.emit x y = some z) (cs : List (Value × Value)) :
    L.results ((x, y) :: cs) = z :: L.results cs := List.filterMap_cons_some hz

theorem results_cons_none (hz : L.emit x y = none) (cs : List (Value × Value)) :
    L.results ((x, y) :: cs) = L.results cs := List.filterMap_cons_none hz

theorem isSequential_link (emitted : Option Value) (j : Nat) : (link emitted (.lazy j)).isSequential = true := by
  cases emitted <;> rfl

end

namespace Looks

variable {L : Loop} {w u u' : World} {i : Nat} {v s x y : Value}

theorem passes (h : L.Looks w i v s x y u u') : u.Passes u' ∧ (w.setCell i .running).Passes u' := by
  have hbody : (w.setCell i .running).Passes (w.inBody i (L.kept v)) := .of_cells_eq rfl
  have hcaller : u.Passes { u with frames := [L.scopes v x, []] } := .of_cells_eq rfl
  have hcall := hcaller.trans h.calls.passes
  exact ⟨hcall, (hbody.trans h.forces.passes).trans hcall⟩

theorem course_next (h : L.Looks w i v s x y u u')
    (hc : w.cells[i]? = some ⟨w.era, .unrealized (L.body v)⟩) (emitted : Option Value) (others : Value) :
    ∃ es, Course u es (L.next w i emitted others u') := by
  obtain ⟨⟨-, es, hes⟩, hp⟩ := h.passes
  have hmake : u'.Passes (u'.addCell (L.body others)).2 := evolution_passes.newCell (L.body others) u'
  obtain ⟨fs, hfs⟩ := World.course_leaveBody hc (hp.trans hmake) (isSequential_link emitted u'.cells.size)
  obtain ⟨gs, hgs⟩ := hmake.2
  exact ⟨_, (hes.append hgs).append hfs⟩

theorem getElem?_next (h : L.Looks w i v s x y u u')
    (hc : w.cells[i]? = some ⟨w.era, .unrealized (L.body v)⟩) (emitted : Option Value) (others : Value) :
    (L.next w i emitted others u').cells[u'.cells.size]? =
      some ⟨(L.next w i emitted others u').era, .unrealized (L.body others)⟩ :=
  World.getElem?_leaveBody_addCell hc h.passes.2 _ _

end Looks

end Loop

theorem Value.tail_eq_or {s x rest : Value} (h : s.split? = some (x, rest)) (w : World) :
    s.tail = rest ∨ ∃ xs, Elements w s.tail xs ∧ Elements w rest xs := by
  cases s with
  | list xs =>
    cases xs with
    | nil => cases h
    | cons y ys =>
      cases h
      exact .inl rfl
  | vector xs =>
    cases xs with
    | nil => cases h
    | cons y ys =>
      cases h
      exact .inr ⟨ys, .list ys, .vector ys⟩
  | map es =>
    cases es with
    | nil => cases h
    | cons e es =>
      cases h
      exact .inr ⟨es.map .entry, .list _, .map es⟩
  | cons y r =>
    cases h
    by_cases hr : rest = .nil
    · subst hr
      exact .inr ⟨[], .list [], .atom .nil⟩
    · left
      cases rest with
      | atom a =>
        cases a with
        | nil => exact absurd rfl hr
        | _ => rfl
      | _ => rfl
  | _ => cases h

theorem Elements.gathered {w : World} {v : Value} {xs ys : List Value} (h : Elements w v xs)
    (hp : ys <+: xs) : ∃ rest, Gathered w v ys rest := by
  induction h generalizing ys with
  | nil ha =>
    cases List.prefix_nil.mp hp
    exact ⟨_, .nil _⟩
  | cons ha _ ih =>
    cases ys with
    | nil => exact ⟨_, .nil _⟩
    | cons y ys =>
      obtain ⟨rfl, hys⟩ := List.cons_prefix_cons.mp hp
      obtain ⟨rest, hrest⟩ := ih hys
      exact ⟨rest, .cons ha hrest⟩

theorem Gathered.prefix_of_elements {w : World} {v rest : Value} {xs ys : List Value}
    (h : Gathered w v ys rest) (he : Elements w v xs) : ys <+: xs := by
  induction h generalizing xs with
  | nil v => exact List.nil_prefix
  | cons ha _ ih =>
    cases he with
    | nil hb => cases ha.unique hb
    | cons hb he =>
      cases ha.unique hb
      exact List.cons_prefix_cons.mpr ⟨rfl, ih he⟩

section

variable {w : World} {s x rest : Value} {ys : List Value}

theorem Elements.of_tail (hn : s.split? = some (x, rest)) (h : Elements w s.tail ys) : Elements w rest ys := by
  rcases Value.tail_eq_or hn w with he | ⟨xs, ht, hr⟩
  · exact he ▸ h
  · rwa [h.unique ht]

theorem Gathered.of_tail {r : Value} (hn : s.split? = some (x, rest)) (h : Gathered w s.tail ys r) :
    ∃ r', Gathered w rest ys r' := by
  rcases Value.tail_eq_or hn w with he | ⟨xs, ht, hr⟩
  · exact ⟨r, he ▸ h⟩
  · exact hr.gathered (h.prefix_of_elements ht)

end

namespace Visits

variable {L : Loop} {w u u' w' : World} {i n : Nat} {v s x y : Value} {cs : List (Value × Value)}

theorem taken (hL : L.Sound) (hk : w.Knows L.names)
    (hc : w.cells[i]? = some ⟨w.era, .unrealized (L.body v)⟩) (h : Visits L w i v n cs w') :
    Taken w (.lazy i) n (L.results cs) w' := by
  induction h with
  | enough w i v => exact .enough w _
  | ended hv hs hn =>
    exact .of_realizes (hL.ended hk hc hv hs hn) (.ended (.of_not_lazy (v := .list []) nofun _) rfl)
  | @emitted w u u' w' i n v s x y z cs hx hz _ ih =>
    have hr := hL.next hk hc hx
    have hrest := ih hx.knows' (hx.getElem?_next hc (some z) s.tail)
    rw [hz] at hr
    rw [Loop.results_cons_some hz]
    exact .of_realizes hr (.next (.of_not_lazy (v := .cons z _) nofun _) rfl hrest)
  | @skipped w u u' w' i n v s x y cs hx hz _ ih =>
    have hr := hL.next hk hc hx
    have hrest := ih hx.knows' (hx.getElem?_next hc none s.tail)
    rw [hz] at hr
    rw [Loop.results_cons_none hz]
    exact .of_realizes hr hrest

theorem atHand (hL : L.Sound) (hx : L.Looks w i v s x y u u') {rest : Value} (hn : s.split? = some (x, rest))
    (hc : w.cells[i]? = some ⟨w.era, .unrealized (L.body v)⟩) (emitted : Option Value)
    (h : Visits L (L.next w i emitted s.tail u') u'.cells.size s.tail n cs w') :
    AtHand w' v (some (x, rest)) := by
  obtain ⟨es, hes⟩ := hx.course_next hc emitted s.tail
  have hk : (L.next w i emitted s.tail u').Knows L.names := hx.knows'
  obtain ⟨fs, hfs⟩ := (h.taken hL hk (hx.getElem?_next hc emitted s.tail)).course
  exact hn ▸ hx.forces.atHand.mono (hes.append hfs)

theorem visited (hL : L.Sound) (hc : w.cells[i]? = some ⟨w.era, .unrealized (L.body v)⟩)
    (h : Visits L w i v n cs w') :
    (∃ rest, Gathered w' v (cs.map Prod.fst) rest) ∧
      ((L.results cs).length < n → Elements w' v (cs.map Prod.fst)) := by
  induction h with
  | enough w i v => exact ⟨⟨v, .nil v⟩, fun h => absurd h (Nat.lt_irrefl 0)⟩
  | @ended w u i n v s hv hs hn =>
    have hp : (w.setCell i .running).Passes u := .trans (v := w.inBody i (L.kept v)) (.of_cells_eq rfl) hv.passes
    obtain ⟨es, hes⟩ := World.course_leaveBody hc hp (s := .list []) rfl
    exact ⟨⟨v, .nil v⟩, fun _ => .nil (hn ▸ hv.atHand.mono hes)⟩
  | @emitted w u u' w' i n v s x y z cs hx hz h ih =>
    obtain ⟨rest, hn⟩ := hx.first
    obtain ⟨⟨r, hr⟩, hall⟩ := ih (hx.getElem?_next hc (some z) s.tail)
    have ha := h.atHand hL hx hn hc (some z)
    obtain ⟨r', hr'⟩ := hr.of_tail hn
    refine ⟨⟨r', .cons ha hr'⟩, fun hlt => .cons ha (.of_tail hn (hall ?_))⟩
    rw [Loop.results_cons_some hz] at hlt
    exact Nat.lt_of_succ_lt_succ hlt
  | @skipped w u u' w' i n v s x y cs hx hz h ih =>
    obtain ⟨rest, hn⟩ := hx.first
    obtain ⟨⟨r, hr⟩, hall⟩ := ih (hx.getElem?_next hc none s.tail)
    have ha := h.atHand hL hx hn hc none
    obtain ⟨r', hr'⟩ := hr.of_tail hn
    rw [Loop.results_cons_none hz]
    exact ⟨⟨r', .cons ha hr'⟩, fun hlt => .cons ha (.of_tail hn (hall hlt))⟩

theorem last_emitted (h : Visits L w i v n cs w') (hl : (L.results cs).length = n) (c : Value × Value)
    (hc : cs.getLast? = some c) : (L.emit c.1 c.2).isSome = true := by
  induction h with
  | enough w i v => cases hc
  | ended hv hs hn => cases hc
  | @emitted w u u' w' i n v s x y z cs hx hz _ ih =>
    rw [Loop.results_cons_some hz] at hl
    cases cs with
    | nil =>
      cases hc
      exact Option.isSome_iff_exists.mpr ⟨z, hz⟩
    | cons d cs => exact ih (Nat.succ.inj hl) (by rwa [List.getLast?_cons_cons] at hc)
  | @skipped w u u' w' i n v s x y cs hx hz _ ih =>
    rw [Loop.results_cons_none hz] at hl
    cases cs with
    | nil => cases hl
    | cons d cs => exact ih hl (by rwa [List.getLast?_cons_cons] at hc)

end Visits

inductive Loop.Reaches (L : Loop) : World → Nat → Value → List (Value × Value) → World → Nat → Value → Prop
  | start (w : World) (i : Nat) (v : Value) : Reaches L w i v [] w i v
  | next {w u u' w' : World} {i i' : Nat} {v v' s x y : Value} {cs : List (Value × Value)} :
      L.Looks w i v s x y u u' →
      Reaches L (L.next w i (L.emit x y) s.tail u') u'.cells.size s.tail cs w' i' v' →
      Reaches L w i v ((x, y) :: cs) w' i' v'

/-- Wherever the loop comes to, what is left of the value is realized to a sequence, `f` returns on its first
element if it has one, and neither changes what a name of the loop means. -/
def Loop.Returns (L : Loop) (w : World) (i : Nat) (v : Value) : Prop :=
  ∀ cs w' i' v', L.Reaches w i v cs w' i' v' → ∃ s u, Forces (w'.inBody i' (L.kept v')) v' (.value s u) ∧
    s.isSeqable = true ∧ (s.split? = none ∨ ∃ x y u', L.Looks w' i' v' s x y u u')

namespace Loop.Returns

variable {L : Loop} {w : World} {i : Nat} {v : Value}

theorem visits_or_reaches (h : L.Returns w i v) (n m : Nat) : (∃ cs w', Visits L w i v n cs w') ∨
    ∃ cs w' i' v', L.Reaches w i v cs w' i' v' ∧ cs.length = m ∧ (L.results cs).length < n := by
  induction m generalizing w i v n with
  | zero =>
    cases n with
    | zero => exact .inl ⟨[], w, .enough w i v⟩
    | succ n => exact .inr ⟨[], w, i, v, .start w i v, rfl, Nat.succ_pos n⟩
  | succ m ih =>
    cases n with
    | zero => exact .inl ⟨[], w, .enough w i v⟩
    | succ n =>
      obtain ⟨s, u, hv, hs, hn | ⟨x, y, u', hx⟩⟩ := h _ _ _ _ (.start w i v)
      · exact .inl ⟨[], _, .ended hv hs hn⟩
      · have hnext : L.Returns (L.next w i (L.emit x y) s.tail u') u'.cells.size s.tail :=
          fun _ _ _ _ hr => h _ _ _ _ (.next hx hr)
        cases hz : L.emit x y with
        | none =>
          rw [hz] at hnext
          rcases ih hnext (n + 1) with ⟨cs, w', hw'⟩ | ⟨cs, w', i', v', hr, hm, hl⟩
          · exact .inl ⟨_, w', .skipped hx hz hw'⟩
          · refine .inr ⟨_, w', i', v', .next hx (by rwa [hz]), congrArg (· + 1) hm, ?_⟩
            rwa [results_cons_none hz]
        | some z =>
          rw [hz] at hnext
          rcases ih hnext n with ⟨cs, w', hw'⟩ | ⟨cs, w', i', v', hr, hm, hl⟩
          · exact .inl ⟨_, w', .emitted hx hz hw'⟩
          · refine .inr ⟨_, w', i', v', .next hx (by rwa [hz]), congrArg (· + 1) hm, ?_⟩
            rw [results_cons_some hz]
            exact Nat.succ_lt_succ hl

theorem exists_visits (h : L.Returns w i v) (n : Nat) : (∃ cs w', Visits L w i v n cs w') ∨
    ∀ m, ∃ cs w' i' v', L.Reaches w i v cs w' i' v' ∧ cs.length = m ∧ (L.results cs).length < n := by
  by_cases hv : ∃ cs w', Visits L w i v n cs w'
  · exact .inl hv
  · exact .inr fun m => (h.visits_or_reaches n m).resolve_left hv

theorem exists_visits_of_length (h : L.Returns w i v) (hl : ∀ cs, (L.results cs).length = cs.length) (n : Nat) :
    ∃ cs w', Visits L w i v n cs w' := by
  rcases h.visits_or_reaches n n with hv | ⟨cs, w', i', v', -, hm, hlt⟩
  · exact hv
  · rw [hl, hm] at hlt
    exact absurd hlt (Nat.lt_irrefl n)

end Loop.Returns

/-- The library function makes a lazy sequence for the value, and taking from it does what the loop says: `f` is
called on the elements of the value one after the other, until there are enough elements or the value ends,
and what was taken is taken again without a change to the world. -/
structure Loop.Computes (L : Loop) (name : String) (identity : Nat) (w : World) (v : Value) : Prop where
  makes : CallsNamed w name [.callable identity L.f, v] (.value (.lazy w.cells.size) (L.made w v))
  takes : ∀ {k : Int64} {cs : List (Value × Value)} {w' : World},
    Visits L (L.made w v) w.cells.size v k.toInt.toNat cs w' →
    Calls (L.made w v) (.primitive .take) [.int k, .lazy w.cells.size] (.value (.list (L.results cs)) w') ∧
      (L.results cs).length ≤ k.toInt.toNat ∧
      (∃ rest, Gathered w' v (cs.map Prod.fst) rest) ∧
      ((L.results cs).length < k.toInt.toNat → Elements w' v (cs.map Prod.fst)) ∧
      ((L.results cs).length = k.toInt.toNat → ∀ c, cs.getLast? = some c → (L.emit c.1 c.2).isSome = true) ∧
      (k ≤ 0 → cs = []) ∧
      ∀ {u : World} {es : List CellEvent}, Course w' es u →
        Calls u (.primitive .take) [.int k, .lazy w.cells.size] (.value (.list (L.results cs)) u)
  visits : L.Returns (L.made w v) w.cells.size v → ∀ n,
    (∃ cs w', Visits L (L.made w v) w.cells.size v n cs w') ∨
      ∀ m, ∃ cs w' i' v', L.Reaches (L.made w v) w.cells.size v cs w' i' v' ∧ cs.length = m ∧
        (L.results cs).length < n

theorem Loop.Sound.computes {L : Loop} (hL : L.Sound) {w : World} (hw : w.Knows L.names)
    {name : String} {identity : Nat} {v : Value}
    (hm : CallsNamed w name [.callable identity L.f, v] (.value (.lazy w.cells.size) (L.made w v))) :
    L.Computes name identity w v := by
  refine ⟨hm, fun {k cs w'} h => ?_, fun hr => hr.exists_visits⟩
  have hk : (L.made w v).Knows L.names := hw
  have hc : (L.made w v).cells[w.cells.size]? = some ⟨(L.made w v).era, .unrealized (L.body v)⟩ :=
    (World.getElem?_addCell w (L.body v) w.cells.size).trans (if_pos rfl)
  have ht := h.taken hL hk hc
  obtain ⟨hvisited, hall⟩ := h.visited hL hc
  refine ⟨ht.calls_take rfl, ht.length_le, hvisited, hall, h.last_emitted, fun hk => ?_, fun hes => ?_⟩
  · have hzero : k.toInt.toNat = 0 := Int.toNat_eq_zero.mpr (Int64.le_iff_toInt_le.mp hk)
    rw [hzero] at h
    cases h
    rfl
  · exact (ht.again hes).calls_take rfl

theorem results_filter (identity : Nat) (f : Callable Value) (cs : List (Value × Value)) :
    (filterLoop identity f).results cs = (cs.filter (·.2.truthy)).map Prod.fst := by
  induction cs with
  | nil => rfl
  | cons c cs ih =>
    cases hc : c.2.truthy with
    | true =>
      have hz : (filterLoop identity f).emit c.1 c.2 = some c.1 := if_pos hc
      rw [List.filter_cons_of_pos (p := fun c : Value × Value => c.2.truthy) hc, List.map_cons, ← ih]
      exact Loop.results_cons_some hz cs
    | false =>
      have hz : (filterLoop identity f).emit c.1 c.2 = none := if_neg (by rw [hc]; exact Bool.false_ne_true)
      rw [List.filter_cons_of_neg (by rw [hc]; exact Bool.false_ne_true), ← ih]
      exact Loop.results_cons_none hz cs

theorem results_map (identity : Nat) (f : Callable Value) (cs : List (Value × Value)) :
    (mapLoop identity f).results cs = cs.map Prod.snd := congrFun List.filterMap_eq_map cs

theorem map_filter_lazy {w : World} {f : Callable Value} (hf : f.isFunction = true)
    (hm : w.Knows mapNames) (hp : w.Knows filterNames) (identity : Nat) (v : Value) :
    (mapLoop identity f).Computes "map" identity w v ∧
      (∀ cs, (mapLoop identity f).results cs = cs.map Prod.snd) ∧
      ((mapLoop identity f).Returns ((mapLoop identity f).made w v) w.cells.size v →
        ∀ n, ∃ cs w', Visits (mapLoop identity f) ((mapLoop identity f).made w v) w.cells.size v n cs w') ∧
      (filterLoop identity f).Computes "filter" identity w v ∧
      ∀ cs, (filterLoop identity f).results cs = (cs.filter (·.2.truthy)).map Prod.fst := by
  have hmap := hm.callsNamed (by simp [Prelude.forms]) definition?_map (by decide) (calls_map identity f hm v)
  have hfilter := hp.callsNamed (by simp [Prelude.forms]) definition?_filter (by decide)
    (calls_filter identity f hp v)
  refine ⟨(Loop.sound_map hf).computes hm hmap, results_map identity f, fun hr => ?_,
    (Loop.sound_filter hf).computes hp hfilter, results_filter identity f⟩
  refine hr.exists_visits_of_length fun cs => ?_
  rw [results_map, List.length_map]

theorem calls_recorder (w : World) (log : Nat) (result : Value) (args : List Value) :
    Calls w (.recorder log result) args (.value result (w.record log args)) := by
  have hcall (k : Kernel) : k.call (.recorder log result) (.ofValues args) w =
      .value result (w.record log args) := by
    simp only [Kernel.call, Kernel.values_ofValues, pure_bind]
    rfl
  exact calls_iff.mpr (.of_forall (n := 0) fun l _ => hcall _)

theorem World.callsOf_record {w : World} {log : Nat} (h : log < w.logs.size) (args : List Value) :
    (w.record log args).callsOf log = w.callsOf log ++ [args] := by
  have hlog : (w.record log args).logs[log]? = some (args :: w.logs[log]?.getD []) := by
    simp only [record, Array.getElem?_modify, Array.getElem?_eq_getElem h]
    rfl
  simp [callsOf, hlog]

section

variable {L : Loop} {log : Nat} {result : Value}

def Loop.calling (L : Loop) (w : World) (i : Nat) (x : Value) (xs : List Value) : World :=
  { w.inBody i (L.kept (.list (x :: xs))) with frames := [L.scopes (.list (x :: xs)) x, []] }

theorem Loop.looks_recorder (hf : L.f = .recorder log result) {w : World} (hk : w.Knows L.names) (i : Nat)
    (x : Value) (xs : List Value) :
    L.Looks w i (.list (x :: xs)) (.list (x :: xs)) x result (w.inBody i (L.kept (.list (x :: xs))))
      ((L.calling w i x xs).record log [x]) := by
  have hcall : Calls (L.calling w i x xs) L.f [x] (.value result ((L.calling w i x xs).record log [x])) := by
    rw [hf]
    exact calls_recorder _ log result [x]
  exact ⟨.of_not_lazy (v := .list (x :: xs)) nofun _, ⟨.list xs, rfl⟩, hcall, hk, hk⟩

theorem Loop.returns_recorder (hf : L.f = .recorder log result) {w : World} (hk : w.Knows L.names) (i : Nat)
    (xs : List Value) : L.Returns w i (.list xs) := by
  intro cs w' i' v' h
  have hreached : w'.Knows L.names ∧ ∃ ys, v' = .list ys := by
    generalize hv : Value.list xs = v at h
    induction h generalizing xs with
    | start w i v => exact ⟨hk, xs, hv.symm⟩
    | next hx _ ih =>
      subst hv
      cases hx.forces.unique (Forces.of_not_lazy (v := .list xs) nofun _)
      exact ih hx.knows' xs.tail rfl
  obtain ⟨hk', ys, rfl⟩ := hreached
  refine ⟨.list ys, _, .of_not_lazy (v := .list ys) nofun _, rfl, ?_⟩
  cases ys with
  | nil => exact .inl rfl
  | cons y ys => exact .inr ⟨y, result, _, looks_recorder hf hk' i' y ys⟩

theorem Visits.recorded (hf : L.f = .recorder log result) (hz : ∀ x, (L.emit x result).isSome = true) {w : World}
    (hk : w.Knows L.names) (hl : log < w.logs.size) (i : Nat) (xs : List Value) (n : Nat) :
    ∃ w', Visits L w i (.list xs) n ((xs.take n).map (·, result)) w' ∧
      w'.callsOf log = w.callsOf log ++ (xs.take n).map ([·]) := by
  induction xs generalizing w i n with
  | nil =>
    cases n with
    | zero => exact ⟨w, .enough w i _, (List.append_nil _).symm⟩
    | succ n =>
      exact ⟨_, .ended (.of_not_lazy (v := .list []) nofun _) rfl rfl, (List.append_nil _).symm⟩
  | cons x xs ih =>
    cases n with
    | zero => exact ⟨w, .enough w i _, (List.append_nil _).symm⟩
    | succ n =>
      obtain ⟨z, hz⟩ := Option.isSome_iff_exists.mp (hz x)
      let called : World := (L.calling w i x xs).record log [x]
      have hsize : log < ((L.calling w i x xs).record log [x]).logs.size := by
        rw [World.record, Array.size_modify]
        exact hl
      obtain ⟨w', hvisits, hlog⟩ := ih (w := L.next w i (some z) (.list xs) called) hk hsize called.cells.size n
      refine ⟨w', .emitted (Loop.looks_recorder hf hk i x xs) hz hvisits, hlog.trans ?_⟩
      have hfirst : (L.next w i (some z) (.list xs) called).callsOf log = w.callsOf log ++ [[x]] :=
        World.callsOf_record (w := L.calling w i x xs) hl [x]
      rw [hfirst, List.append_assoc]
      rfl

end

def loggedWorld : World := { World.standard with logs := #[[]] }

def noted : Callable Value := .recorder 0 (.int 9)

def threeItems : Value := .list [.int 1, .int 2, .int 3]

theorem map_filter_lazy_logged :
    ((∀ n, ∃ cs w', Visits (mapLoop 0 noted) ((mapLoop 0 noted).made loggedWorld threeItems) loggedWorld.cells.size
        threeItems n cs w') ∧
      ∃ w', Calls ((mapLoop 0 noted).made loggedWorld threeItems) (.primitive .take)
          [.int 2, .lazy loggedWorld.cells.size] (.value (.list [.int 9, .int 9]) w') ∧
        w'.callsOf 0 = [[.int 1], [.int 2]] ∧
        Calls w' (.primitive .take) [.int 2, .lazy loggedWorld.cells.size] (.value (.list [.int 9, .int 9]) w')) ∧
    ∃ w', Calls ((filterLoop 0 noted).made loggedWorld threeItems) (.primitive .take)
        [.int 2, .lazy loggedWorld.cells.size] (.value (.list [.int 1, .int 2]) w') ∧
      w'.callsOf 0 = [[.int 1], [.int 2]] := by
  have hk (names : List String) : loggedWorld.Knows names := by
    intro name _
    rw [loggedWorld]
  have hl : loggedWorld.logs = #[[]] := rfl
  generalize loggedWorld = w at hk hl
  obtain ⟨hm, -, hvisits, hf, -⟩ := map_filter_lazy (w := w) (f := noted) rfl (hk _) (hk _) 0 threeItems
  have hsize : 0 < w.logs.size := by rw [hl]; decide
  have hcalls (L : Loop) : (L.made w threeItems).callsOf 0 = [] := by
    simp [Loop.made, World.callsOf, World.addCell, hl]
  have hrun {L : Loop} (hf : L.f = noted) (hz : ∀ x, (L.emit x (.int 9)).isSome = true) :=
    Visits.recorded hf hz (w := L.made w threeItems) (hk _) hsize w.cells.size [.int 1, .int 2, .int 3] 2
  have hreturns : (mapLoop 0 noted).Returns ((mapLoop 0 noted).made w threeItems) w.cells.size threeItems :=
    Loop.returns_recorder rfl (w := (mapLoop 0 noted).made w threeItems) (hk _) _ _
  refine ⟨⟨hvisits hreturns, ?_⟩, ?_⟩
  · obtain ⟨w', hv, hlog⟩ := hrun (L := mapLoop 0 noted) rfl fun _ => rfl
    have ht := hm.takes (k := 2) hv
    rw [hcalls] at hlog
    exact ⟨w', ht.1, hlog, ht.2.2.2.2.2.2 (.start w')⟩
  · obtain ⟨w', hv, hlog⟩ := hrun (L := filterLoop 0 noted) rfl fun _ => rfl
    have ht := hf.takes (k := 2) hv
    rw [hcalls] at hlog
    exact ⟨w', ht.1, hlog⟩

end LazyLisp
