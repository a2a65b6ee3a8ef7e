import LazyLisp.Proofs.Patterns

namespace LazyLisp

def Value.isParameter : Value → Bool
  | .symbol _ => true
  | .keyword text => decide (text = ":as")
  | _ => false

def Value.name? : Value → Option String
  | .symbol name => some name
  | _ => none

/-- What a name in a parameter list stands for: the argument at a position, the arguments that are left, or
all of them. -/
inductive Slot where
  | position (name : String)
  | rest (name : String)
  | whole (name : String)

/-- The slots of a parameter list in which each marker, also one after `&`, has a name after it. -/
def slots : List Value → Option (List Slot)
  | [] => some []
  | [p] =>
    match p.marker? with
    | some _ => none
    | none => p.name?.map fun x => [.position x]
  | p :: t :: rest =>
    match p.marker? with
    | some .rest => t.name?.bind fun x => (slots rest).map (.rest x :: ·)
    | some .whole => t.name?.bind fun x => (slots rest).map (.whole x :: ·)
    | none => p.name?.bind fun x => (slots (t :: rest)).map (.position x :: ·)

namespace Slot

def name : Slot → String
  | position x => x
  | rest x => x
  | whole x => x

def isRest : Slot → Bool
  | rest _ => true
  | _ => false

def positions : List Slot → Nat
  | [] => 0
  | position _ :: sl => positions sl + 1
  | _ :: sl => positions sl

def bindings (args : List Value) : List Value → List Slot → List (String × Value)
  | _, [] => []
  | left, position x :: sl => (x, left.head?.getD .nil) :: bindings args left.tail sl
  | left, rest x :: sl => (x, .vector left) :: bindings args [] sl
  | left, whole x :: sl => (x, .vector args) :: bindings args left sl

def arity : Nat → List Slot → Arity
  | n, [] => .exactly n
  | n, position _ :: sl => arity (n + 1) sl
  | n, rest _ :: _ => .atLeast n
  | n, whole _ :: sl => arity n sl

theorem map_fst_bindings (args left : List Value) (sl : List Slot) :
    (bindings args left sl).map Prod.fst = sl.map name := by
  fun_induction bindings args left sl with
  | case1 left => rfl
  | case2 left x sl ih => simp [name, ih]
  | case3 left x sl ih => simp [name, ih]
  | case4 left x sl ih => simp [name, ih]

-- Positions take one argument each; only after `&` would there be none left.
theorem bindings_append (args left : List Value) {pre : List Slot} (hp : ∀ s ∈ pre, s.isRest = false)
    (post : List Slot) : bindings args left (pre ++ post) =
      bindings args left pre ++ bindings args (left.drop (positions pre)) post := by
  induction pre generalizing left with
  | nil => rfl
  | cons s pre ih =>
    have hpre (left : List Value) := ih left fun s hs => hp s (List.mem_cons_of_mem _ hs)
    cases s with
    | position x => simp [bindings, hpre, positions]
    | rest x => cases hp (.rest x) List.mem_cons_self
    | whole x => simp [bindings, hpre, positions]

theorem mem_bindings_whole (args : List Value) {sl : List Slot} {x : String} (h : .whole x ∈ sl)
    (left : List Value) : (x, .vector args) ∈ bindings args left sl := by
  fun_induction bindings args left sl with
  | case1 left => cases h
  | case2 left y sl ih => exact List.mem_cons_of_mem _ (ih (by simpa using h))
  | case3 left y sl ih => exact List.mem_cons_of_mem _ (ih (by simpa using h))
  | case4 left y sl ih =>
    rcases List.mem_cons.mp h with he | h
    · cases he
      exact List.mem_cons_self
    · exact List.mem_cons_of_mem _ (ih h)

theorem le_of_accepts {n count : Nat} (sl : List Slot) (h : (arity n sl).accepts count = true) :
    n ≤ count := by
  fun_induction arity n sl with
  | case1 n => exact Nat.le_of_eq ((Arity.accepts_exactly n count).mp h).symm
  | case2 n x sl ih => exact Nat.le_of_succ_le (ih h)
  | case3 n x sl => exact of_decide_eq_true h
  | case4 n x sl ih => exact ih h

theorem position_lt_of_accepts {pre post : List Slot} {x : String} {n count : Nat}
    (hp : ∀ s ∈ pre, s.isRest = false) (h : (arity n (pre ++ position x :: post)).accepts count = true) :
    n + positions pre < count := by
  induction pre generalizing n with
  | nil => exact le_of_accepts post h
  | cons s pre ih =>
    have hpre {n : Nat} := ih (n := n) fun s hs => hp s (List.mem_cons_of_mem _ hs)
    cases s with
    | position y =>
      have hlt := hpre h
      simp only [positions]
      omega
    | rest y => cases hp (.rest y) List.mem_cons_self
    | whole y => exact hpre h

structure Bound (scope : Scope) (args : List Value) (sl : List Slot) : Prop where
  position : ∀ pre {x post}, sl = pre ++ position x :: post → (∀ s ∈ pre, s.isRest = false) →
    positions pre < args.length ∧ scope.get? x = args[positions pre]?
  rest : ∀ pre {x post}, sl = pre ++ rest x :: post → (∀ s ∈ pre, s.isRest = false) →
    scope.get? x = some (.vector (args.drop (positions pre)))
  whole : ∀ {x}, whole x ∈ sl → scope.get? x = some (.vector args)

end Slot

theorem Bindings.get?_insertAll_of_mem {α : Type} (b : Bindings α) {es : List (String × α)}
    (hn : (es.map Prod.fst).Nodup) {name : String} {a : α} (h : (name, a) ∈ es) :
    (b.insertAll es).get? name = some a := by
  induction es generalizing b with
  | nil => cases h
  | cons e es ih =>
    obtain ⟨he, hn⟩ := List.nodup_cons.mp hn
    rcases List.mem_cons.mp h with rfl | h
    · have hfind : es.reverse.find? (·.1 = name) = none := by
        refine List.find?_eq_none.mpr fun d hd => ?_
        simp only [decide_eq_true_eq]
        intro hname
        exact he (List.mem_map.mpr ⟨d, List.mem_reverse.mp hd, hname⟩)
      refine ((b.insert name a).get?_insertAll es name).trans ?_
      rw [hfind, get?_insert_self]
      rfl
    · exact ih (b.insert e.1 e.2) hn h

theorem Slot.bound_bindings {args : List Value} {sl : List Slot} (hn : (sl.map name).Nodup)
    (ha : (arity 0 sl).accepts args.length = true) (scope : Scope) :
    Bound (scope.insertAll (bindings args args sl)) args sl := by
  have hget {x : String} {v : Value} (hm : (x, v) ∈ bindings args args sl) :
      (scope.insertAll (bindings args args sl)).get? x = some v :=
    scope.get?_insertAll_of_mem (by rwa [map_fst_bindings]) hm
  constructor
  · rintro pre x post rfl hp
    have hlt := position_lt_of_accepts hp ha
    rw [Nat.zero_add] at hlt
    refine ⟨hlt, ?_⟩
    rw [List.getElem?_eq_getElem hlt]
    refine hget ?_
    rw [bindings_append args args hp, bindings, List.head?_drop, List.getElem?_eq_getElem hlt]
    exact List.mem_append_right _ List.mem_cons_self
  · rintro pre x post rfl hp
    refine hget ?_
    rw [bindings_append args args hp]
    exact List.mem_append_right _ List.mem_cons_self
  · intro x hx
    exact hget (mem_bindings_whole args hx args)

theorem arityFrom_of_slots {ps : List Value} {sl : List Slot} (h : slots ps = some sl) (n : Nat) :
    Closure.arityFrom n ps = .ok (Slot.arity n sl) := by
  fun_induction slots ps generalizing n sl with
  | case1 =>
    cases h
    rfl
  | case2 p marker hm => cases h
  | case3 p hm =>
    obtain ⟨x, -, rfl⟩ := Option.map_eq_some_iff.mp h
    simp only [Closure.arityFrom, hm, Slot.arity]
  | case4 p t rest hm ih =>
    obtain ⟨x, -, hrest⟩ := Option.bind_eq_some_iff.mp h
    obtain ⟨sl, -, rfl⟩ := Option.map_eq_some_iff.mp hrest
    simp only [Closure.arityFrom, hm, Slot.arity]
  | case5 p t rest hm ih =>
    obtain ⟨x, -, hrest⟩ := Option.bind_eq_some_iff.mp h
    obtain ⟨sl, hsl, rfl⟩ := Option.map_eq_some_iff.mp hrest
    simp only [Closure.arityFrom, hm, Slot.arity, ih hsl]
  | case6 p t rest hm ih =>
    obtain ⟨x, -, hrest⟩ := Option.bind_eq_some_iff.mp h
    obtain ⟨sl, hsl, rfl⟩ := Option.map_eq_some_iff.mp hrest
    simp only [Closure.arityFrom, hm, Slot.arity, ih hsl]

def Settles (w : World) (ss : List Scope) (fs : List Frame) (m : Nat → Eval Unit) (s : Scope) :
    Option (List (String × Value)) → Prop
  | some bs => Eventually (fun l => m l (w.inScope ss fs s)) (.value () (w.inScope ss fs (s.insertAll bs)))
  | none => ∃ e s', e.isDestructuring = true ∧
      Eventually (fun l => m l (w.inScope ss fs s)) (.failure e (w.inScope ss fs s'))

namespace Settles

variable {w : World} {ss : List Scope} {fs : List Frame} {m m' : Nat → Eval Unit} {s : Scope}

theorem bind {a b : Option (List (String × Value))} (h : Settles w ss fs m s a)
    (next : ∀ cs, a = some cs → Settles w ss fs m' (s.insertAll cs) b) :
    Settles w ss fs (fun l => m l >>= fun _ => m' l) s (a.bind fun cs => b.map (cs ++ ·)) := by
  cases a with
  | none =>
    obtain ⟨e, s', he, hm⟩ := h
    exact ⟨e, s', he, hm.bind_failure⟩
  | some cs =>
    cases b with
    | none =>
      obtain ⟨e, s', he, hm⟩ := next cs rfl
      exact ⟨e, s', he, (Eventually.bind_iff h).mpr hm⟩
    | some ds =>
      have hnext := (Eventually.bind_iff (f := fun l _ => m' l) h).mpr (next cs rfl)
      rwa [← Bindings.insertAll_append] at hnext

theorem after {α : Type} {pre : Nat → Eval α} {f : Nat → α → Eval Unit} {a : α}
    {o : Option (List (String × Value))} (hp : ∀ u, Eventually (fun l => pre l u) (.value a u))
    (h : Settles w ss fs (fun l => f l a) s o) : Settles w ss fs (fun l => pre l >>= f l) s o := by
  cases o with
  | none =>
    obtain ⟨e, s', he, hm⟩ := h
    exact ⟨e, s', he, (Eventually.bind_iff (hp _)).mpr hm⟩
  | some bs => exact (Eventually.bind_iff (hp _)).mpr h

theorem refuse {e : Failure} (he : e.isDestructuring = true) :
    Settles w ss fs (fun _ => .fail e) s none :=
  ⟨e, s, he, nofun, 0, fun _ _ => rfl⟩

theorem parameter {p : Value} (hp : p.isParameter = true) (v : Value) :
    Settles w ss fs (fun l => (Kernel.withFuel l).destructure p v) s (p.name?.map fun x => [(x, v)]) := by
  cases p with
  | atom a =>
    cases a with
    | symbol name => exact .of_forall (n := 0) fun l _ => rfl
    | keyword text => exact refuse (e := .unexpectedPattern (.keyword text)) rfl
    | _ => cases hp
  | _ => cases hp

theorem slot {p v : Value} (hp : p.isParameter = true) {others : Option (List Slot)}
    {f g : List Slot → List (String × Value)} {slot : String → Slot}
    (hg : ∀ x sl, g (slot x :: sl) = (x, v) :: f sl) (next : ∀ s, Settles w ss fs m' s (others.map f)) :
    Settles w ss fs (fun l => (Kernel.withFuel l).destructure p v >>= fun _ => m' l) s
      ((p.name?.bind fun x => others.map (slot x :: ·)).map g) := by
  have hone : Settles w ss fs (fun l => (Kernel.withFuel l).destructure p v) s _ := parameter hp v
  have h := hone.bind fun cs _ => next (s.insertAll cs)
  generalize p.name? = target at h ⊢
  cases target with
  | none => exact h
  | some x =>
    cases others with
    | none => exact h
    | some sl =>
      simp only [Option.map_some, Option.bind_some, hg]
      exact h

end Settles

inductive Remaining : List Value → Value → Prop
  | vector (xs : List Value) : Remaining xs (.vector xs)
  | nothing : Remaining [] .nil

namespace Remaining

variable {xs : List Value} {left : Value}

theorem next (h : Remaining xs left) : ∃ left', Remaining xs.tail left' ∧
    ∀ w, Eventually (fun l => (Kernel.withFuel l).nextElement left w)
      (.value (xs.head?.getD .nil, left') w) := by
  cases h with
  | vector xs =>
    cases xs with
    | nil =>
      exact ⟨.nil, .nothing, fun w =>
        (Forces.of_not_lazy (v := .vector []) nofun w).uncons_iff.mpr (.pure _ w)⟩
    | cons x xs =>
      exact ⟨.vector xs, .vector xs, fun w =>
        (Forces.of_not_lazy (v := .vector (x :: xs)) nofun w).uncons_iff.mpr (.pure _ w)⟩
  | nothing =>
    exact ⟨.nil, .nothing, fun w => (Forces.of_not_lazy (v := .nil) nofun w).uncons_iff.mpr (.pure _ w)⟩

theorem elements (h : Remaining xs left) (w : World) :
    Eventually (fun l => (Kernel.withFuel l).elements left w) (.value xs w) := by
  have hx : Elements w left xs := by
    cases h with
    | vector xs => exact .vector xs
    | nothing => exact .atom .nil
  obtain ⟨n, hn⟩ := elements_eq hx
  exact .of_forall hn

end Remaining

theorem settles_items {w : World} {ss : List Scope} {fs : List Frame} (args : List Value) :
    ∀ {ps : List Value}, (∀ p ∈ ps, p.isParameter = true) → ∀ {xs : List Value} {left : Value} {s : Scope},
      Remaining xs left →
      Settles w ss fs (fun l => (Kernel.withFuel l).destructureItems (.vector args) left ps) s
        ((slots ps).map (Slot.bindings args xs))
  | [], _, _, _, _, _ => .pure () _
  | [p], hp, xs, left, s, hr => by
    simp only [Kernel.destructureItems, slots]
    cases hm : p.marker? with
    | some marker => exact .refuse rfl
    | none =>
      obtain ⟨left', hr', hnext⟩ := hr.next
      rw [Option.map_map]
      exact .after hnext (.parameter (hp p (by simp)) (xs.head?.getD .nil))
  | p :: t :: rest, hp, xs, left, s, hr => by
    have hrest : ∀ q ∈ rest, q.isParameter = true := fun q hq => hp q (by simp [hq])
    simp only [Kernel.destructureItems, slots]
    cases hm : p.marker? with
    | none =>
      obtain ⟨left', hr', hnext⟩ := hr.next
      refine .after hnext (.slot (hp p (by simp)) (fun x sl => rfl) fun s => ?_)
      exact settles_items args (fun q hq => hp q (List.mem_cons_of_mem _ hq)) hr'
    | some marker =>
      cases marker with
      | rest =>
        exact .after hr.elements (.slot (hp t (by simp)) (fun x sl => rfl) fun s =>
          settles_items args hrest .nothing)
      | whole =>
        exact .slot (hp t (by simp)) (fun x sl => rfl) fun s => settles_items args hrest hr

theorem Slot.eventually_destructure {ps : List Value} (hp : ∀ p ∈ ps, p.isParameter = true)
    {sl : List Slot} (hs : slots ps = some sl) (args : List Value) (w : World) (ss : List Scope)
    (fs : List Frame) (s : Scope) :
    Eventually (fun l => (Kernel.withFuel l).destructure (.vector ps) (.vector args) (w.inScope ss fs s))
      (.value () (w.inScope ss fs (s.insertAll (bindings args args sl)))) := by
  have h : Settles w ss fs _ s _ := settles_items args hp (.vector args)
  rw [hs] at h
  exact h

/-- A list that is accepted when a function is made binds its names at every call that it accepts exactly
if each marker has a name after it. -/
theorem parameters_bind {ps : List Value} (hp : ∀ p ∈ ps, p.isParameter = true) {a : Arity}
    (ha : Closure.arityOf ps = .ok a) {args : List Value} (hn : a.accepts args.length = true) (w : World)
    (scope : Scope) :
    ((∃ e w', e.isDestructuring = true ∧ Eventually (fun l =>
        (Kernel.withFuel l).destructure (.vector ps) (.vector args) (w.pushFrame scope)) (.failure e w')) ↔
      slots ps = none) ∧
    ∀ sl, slots ps = some sl → Eventually (fun l =>
        (Kernel.withFuel l).destructure (.vector ps) (.vector args) (w.pushFrame scope))
          (.value () (w.pushFrame (scope.insertAll (Slot.bindings args args sl)))) ∧
      ((sl.map Slot.name).Nodup → Slot.Bound (scope.insertAll (Slot.bindings args args sl)) args sl) := by
  have hbound {sl : List Slot} (hs : slots ps = some sl) :=
    Slot.eventually_destructure hp hs args w [] w.frames scope
  refine ⟨⟨?_, ?_⟩, ?_⟩
  · rintro ⟨e, w', -, hm⟩
    cases hs : slots ps with
    | none => rfl
    | some sl => cases hm.unique (hbound hs)
  · intro hs
    have h : Settles w [] w.frames _ scope _ := settles_items args hp (.vector args)
    rw [hs] at h
    obtain ⟨e, s', he, hm⟩ := h
    exact ⟨e, _, he, hm⟩
  · intro sl hs
    cases (arityFrom_of_slots hs 0).symm.trans ha
    exact ⟨hbound hs, fun hnodup => Slot.bound_bindings hnodup hn scope⟩

def markedParameters : List Value :=
  [.symbol "a", .symbol "&", .symbol "more", .keyword ":as", .symbol "all"]

-- The lazy argument belongs to no cell, so that it could not be realized.
theorem parameters_bind_marked :
    Closure.arityOf markedParameters = .ok (.atLeast 1) ∧ ∃ scope : Scope,
      Eventually (fun l => (Kernel.withFuel l).destructure (.vector markedParameters)
        (.vector [.int 1, .lazy 7]) (World.empty.pushFrame .empty)) (.value () (World.empty.pushFrame scope)) ∧
      scope.get? "a" = some (.int 1) ∧ scope.get? "more" = some (.vector [.lazy 7]) ∧
      scope.get? "all" = some (.vector [.int 1, .lazy 7]) := by
  have hp : ∀ p ∈ markedParameters, p.isParameter = true := by simp [markedParameters, Value.isParameter]
  have hn : (Arity.atLeast 1).accepts [Value.int 1, .lazy 7].length = true := rfl
  have h := (parameters_bind hp rfl hn World.empty .empty).2 _ rfl
  have hb := h.2 (by decide)
  refine ⟨rfl, _, h.1, ?_, ?_, hb.whole (by simp)⟩
  · exact (hb.position [] rfl (by simp)).2
  · exact hb.rest [.position "a"] rfl (by simp [Slot.isRest])

/-- `[& xs :as]`: what comes after the name of `&` is not looked at when a function is made. -/
def trailingParameters : List Value := [.symbol "&", .symbol "xs", .keyword ":as"]

theorem parameters_unbound_trailing :
    (∀ p ∈ trailingParameters, p.isParameter = true) ∧
      Closure.arityOf trailingParameters = .ok (.atLeast 0) ∧ (Arity.atLeast 0).accepts 2 = true ∧
      Eventually (fun l => (Kernel.withFuel l).destructure (.vector trailingParameters)
        (.vector [.int 1, .int 2]) (World.empty.pushFrame .empty))
        (.failure (.targetMissing .whole)
          (World.empty.pushFrame (Bindings.empty.insert "xs" (.vector [.int 1, .int 2])))) := by
  refine ⟨by simp [trailingParameters, Value.isParameter], rfl, rfl, nofun, 4, fun l hl => ?_⟩
  obtain ⟨l, rfl⟩ : ∃ j, l = j + 4 := ⟨l - 4, by omega⟩
  rfl

end LazyLisp
