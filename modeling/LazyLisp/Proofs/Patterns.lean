import LazyLisp.Proofs.Taking

namespace LazyLisp

def Bindings.insertAll {α : Type} (b : Bindings α) (entries : List (String × α)) : Bindings α :=
  entries.foldl (fun b e => b.insert e.1 e.2) b

theorem Bindings.insertAll_append {α : Type} (b : Bindings α) (es ds : List (String × α)) :
    b.insertAll (es ++ ds) = (b.insertAll es).insertAll ds := by
  simp [insertAll]

theorem Bindings.get?_insertAll {α : Type} (b : Bindings α) (es : List (String × α)) (name : String) :
    (b.insertAll es).get? name = ((es.reverse.find? (·.1 = name)).map Prod.snd).or (b.get? name) := by
  induction es generalizing b with
  | nil => rfl
  | cons e es ih =>
    refine (ih (b.insert e.1 e.2)).trans ?_
    rw [get?_insert, List.reverse_cons, List.find?_append]
    by_cases he : e.1 = name <;> cases es.reverse.find? (·.1 = name) <;> simp [he]

namespace Value

mutual

/-- A symbol, or a vector of patterns in which each marker is followed by a pattern. -/
def isPattern : Value → Bool
  | .symbol _ => true
  | .vector ps => arePatterns ps
  | _ => false

def arePatterns : List Value → Bool
  | [] => true
  | [p] => p.marker?.isNone && isPattern p
  | p :: t :: rest =>
    match p.marker? with
    | some _ => isPattern t && arePatterns rest
    | none => isPattern p && arePatterns (t :: rest)

end

mutual

def targets : Value → List String
  | .symbol name => [name]
  | .vector ps => itemTargets ps
  | _ => []

def itemTargets : List Value → List String
  | [] => []
  | [p] => targets p
  | p :: t :: rest =>
    match p.marker? with
    | some _ => targets t ++ itemTargets rest
    | none => targets p ++ itemTargets (t :: rest)

end

end Value

inductive ElementAt (w : World) : Value → Nat → Value → Prop
  | here {v x rest : Value} : AtHand w v (some (x, rest)) → ElementAt w v 0 x
  | later {v x y rest : Value} {i : Nat} : AtHand w v (some (y, rest)) → ElementAt w rest i x →
      ElementAt w v (i + 1) x
  | past {v : Value} {i : Nat} : AtHand w v none → ElementAt w v i .nil

theorem ElementAt.unique {w : World} {v x y : Value} {i : Nat} (hx : ElementAt w v i x)
    (hy : ElementAt w v i y) : x = y := by
  induction hx with
  | here ha =>
    cases hy with
    | here hb =>
      cases ha.unique hb
      rfl
    | past hb => cases ha.unique hb
  | later ha _ ih =>
    cases hy with
    | later hb hy =>
      cases ha.unique hb
      exact ih hy
    | past hb => cases ha.unique hb
  | past ha =>
    cases hy with
    | here hb => cases ha.unique hb
    | later hb _ => cases ha.unique hb
    | past _ => rfl

theorem ElementAt.mono {w w' : World} {v x : Value} {i : Nat} {es : List CellEvent}
    (h : ElementAt w v i x) (hc : Course w es w') : ElementAt w' v i x := by
  induction h with
  | here ha => exact .here (ha.mono hc)
  | later ha _ ih => exact .later (ha.mono hc) ih
  | past ha => exact .past (ha.mono hc)

mutual

/-- What the names of a pattern stand for, in the order in which they are bound. -/
def Fits (w : World) : Value → Value → List (String × Value) → Prop
  | .symbol name, v, bs => bs = [(name, v)]
  | .vector ps, v, bs => v.isSequential = true ∧ FitsItems w v 0 ps bs
  | _, _, _ => False

/-- The items after those that have taken `i` positions of `v`. As `&` takes all that is left, no
position is left after it. -/
def FitsItems (w : World) (v : Value) : Nat → List Value → List (String × Value) → Prop
  | _, [], bs => bs = []
  | i, [p], bs => p.marker? = none ∧ ∃ x, ElementAt w v i x ∧ Fits w p x bs
  | i, p :: t :: rest, bs =>
    match p.marker? with
    | some .rest => ∃ xs cs ds, Elements w v xs ∧ Fits w t (.vector (xs.drop i)) cs ∧
        FitsItems w v (max i xs.length) rest ds ∧ bs = cs ++ ds
    | some .whole => ∃ cs ds, Fits w t v cs ∧ FitsItems w v i rest ds ∧ bs = cs ++ ds
    | none => ∃ x cs ds, ElementAt w v i x ∧ Fits w p x cs ∧ FitsItems w v (i + 1) (t :: rest) ds ∧
        bs = cs ++ ds

end

mutual

/-- Every vector pattern is matched against a sequential value. -/
def Meets (w : World) : Value → Value → Prop
  | .vector ps, v => v.isSequential = true ∧ MeetsItems w v 0 ps
  | _, _ => True

def MeetsItems (w : World) (v : Value) : Nat → List Value → Prop
  | _, [] => True
  | i, [p] => ∀ x, ElementAt w v i x → Meets w p x
  | i, p :: t :: rest =>
    match p.marker? with
    | some .rest => ∀ xs, Elements w v xs → Meets w t (.vector (xs.drop i)) ∧
        MeetsItems w v (max i xs.length) rest
    | some .whole => Meets w t v ∧ MeetsItems w v i rest
    | none => (∀ x, ElementAt w v i x → Meets w p x) ∧ MeetsItems w v (i + 1) (t :: rest)

end

mutual

theorem Fits.mono {w w' : World} {es : List CellEvent} (hc : Course w es w') :
    ∀ {p v : Value} {bs : List (String × Value)}, Fits w p v bs → Fits w' p v bs
  | .atom (.symbol name), _, _, h => by simpa only [Fits] using h
  | .vector ps, _, _, h => by
    simp only [Fits] at h ⊢
    exact ⟨h.1, FitsItems.mono hc h.2⟩

theorem FitsItems.mono {w w' : World} {es : List CellEvent} (hc : Course w es w') {v : Value} :
    ∀ {ps : List Value} {i : Nat} {bs : List (String × Value)}, FitsItems w v i ps bs →
      FitsItems w' v i ps bs
  | [], _, _, h => by simpa only [FitsItems] using h
  | [p], _, _, h => by
    simp only [FitsItems] at h ⊢
    obtain ⟨hm, x, hx, hp⟩ := h
    exact ⟨hm, x, hx.mono hc, Fits.mono hc hp⟩
  | p :: t :: rest, _, _, h => by
    simp only [FitsItems] at h ⊢
    cases hm : p.marker? with
    | none =>
      rw [hm] at h
      obtain ⟨x, cs, ds, hx, hp, hr, rfl⟩ := h
      exact ⟨x, cs, ds, hx.mono hc, Fits.mono hc hp, FitsItems.mono hc hr, rfl⟩
    | some marker =>
      cases marker with
      | rest =>
        rw [hm] at h
        obtain ⟨xs, cs, ds, hx, ht, hr, rfl⟩ := h
        exact ⟨xs, cs, ds, hx.mono hc, Fits.mono hc ht, FitsItems.mono hc hr, rfl⟩
      | whole =>
        rw [hm] at h
        obtain ⟨cs, ds, ht, hr, rfl⟩ := h
        exact ⟨cs, ds, Fits.mono hc ht, FitsItems.mono hc hr, rfl⟩

end

mutual

theorem Fits.suits {w : World} : ∀ {p v : Value} {bs : List (String × Value)}, Fits w p v bs →
    p.isPattern = true ∧ Meets w p v
  | .atom (.symbol name), _, _, _ => by simp only [Value.isPattern, Meets, and_self]
  | .vector ps, _, _, h => by
    simp only [Fits] at h
    obtain ⟨hp, hm⟩ := FitsItems.suits h.2
    simp only [Value.isPattern, Meets]
    exact ⟨hp, h.1, hm⟩

theorem FitsItems.suits {w : World} {v : Value} : ∀ {ps : List Value} {i : Nat}
    {bs : List (String × Value)}, FitsItems w v i ps bs →
      Value.arePatterns ps = true ∧ MeetsItems w v i ps
  | [], _, _, _ => by simp only [Value.arePatterns, MeetsItems, and_self]
  | [p], _, _, h => by
    simp only [FitsItems] at h
    obtain ⟨hm, x, hx, hp⟩ := h
    obtain ⟨hp, hs⟩ := Fits.suits hp
    simp only [Value.arePatterns, MeetsItems, hm, hp]
    exact ⟨rfl, fun y hy => hx.unique hy ▸ hs⟩
  | p :: t :: rest, _, _, h => by
    simp only [FitsItems] at h
    simp only [Value.arePatterns, MeetsItems]
    cases hm : p.marker? with
    | none =>
      rw [hm] at h
      obtain ⟨x, cs, ds, hx, hp, hr, rfl⟩ := h
      obtain ⟨hp, hs⟩ := Fits.suits hp
      obtain ⟨hr, hsr⟩ := FitsItems.suits hr
      simp only [hp, hr]
      exact ⟨rfl, fun y hy => hx.unique hy ▸ hs, hsr⟩
    | some marker =>
      cases marker with
      | rest =>
        rw [hm] at h
        obtain ⟨xs, cs, ds, hx, ht, hr, rfl⟩ := h
        obtain ⟨ht, hs⟩ := Fits.suits ht
        obtain ⟨hr, hsr⟩ := FitsItems.suits hr
        simp only [ht, hr]
        exact ⟨rfl, fun ys hy => hx.unique hy ▸ ⟨hs, hsr⟩⟩
      | whole =>
        rw [hm] at h
        obtain ⟨cs, ds, ht, hr, rfl⟩ := h
        obtain ⟨ht, hs⟩ := Fits.suits ht
        obtain ⟨hr, hsr⟩ := FitsItems.suits hr
        simp only [ht, hr]
        exact ⟨rfl, hs, hsr⟩

end

inductive Left (w : World) : Value → Nat → Value → Prop
  | start (v : Value) : Left w v 0 v
  | later {v x rest left : Value} {i : Nat} : AtHand w v (some (x, rest)) → Left w rest i left →
      Left w v (i + 1) left
  | past {v : Value} {i : Nat} : AtHand w v none → Left w v i .nil

namespace Left

variable {w w' : World} {v x rest left : Value} {i : Nat} {xs : List Value}

theorem mono {es : List CellEvent} (h : Left w v i left) (hc : Course w es w') : Left w' v i left := by
  induction h with
  | start v => exact .start v
  | later ha _ ih => exact .later (ha.mono hc) ih
  | past ha => exact .past (ha.mono hc)

theorem next (h : Left w v i left) (ha : AtHand w left (some (x, rest))) :
    ElementAt w v i x ∧ Left w v (i + 1) rest := by
  induction h with
  | start v => exact ⟨.here ha, .later ha (.start rest)⟩
  | later hb _ ih => exact ⟨.later hb (ih ha).1, .later hb (ih ha).2⟩
  | past _ => cases ha.unique (.plain nofun)

theorem ended (h : Left w v i left) (ha : AtHand w left none) :
    ElementAt w v i .nil ∧ Left w v (i + 1) .nil := by
  induction h with
  | start v => exact ⟨.past ha, .past ha⟩
  | later hb _ ih => exact ⟨.later hb (ih ha).1, .later hb (ih ha).2⟩
  | past hb => exact ⟨.past hb, .past hb⟩

theorem of_elements (h : Elements w v xs) (hi : xs.length ≤ i) : Left w v i .nil := by
  induction h generalizing i with
  | nil ha => exact .past ha
  | cons ha _ ih =>
    obtain ⟨i, rfl⟩ : ∃ j, i = j + 1 := ⟨i - 1, by simp only [List.length_cons] at hi; omega⟩
    exact .later ha (ih (Nat.le_of_succ_le_succ hi))

theorem drain (h : Left w v i left) (hx : Elements w left xs) :
    ∃ ys, Elements w v ys ∧ xs = ys.drop i := by
  induction h with
  | start v => exact ⟨xs, hx, rfl⟩
  | @later _ x _ _ _ ha _ ih =>
    obtain ⟨ys, hy, rfl⟩ := ih hx
    exact ⟨x :: ys, .cons ha hy, rfl⟩
  | past ha =>
    cases hx.unique (.atom .nil)
    exact ⟨[], .nil ha, List.drop_nil.symm⟩

end Left

mutual

/-- Some `&` of the pattern is matched against a sequence that has no end. -/
def Stalls (w : World) : Value → Value → Prop
  | .vector ps, v => v.isSequential = true ∧ StallsItems w v 0 ps
  | _, _ => False

def StallsItems (w : World) (v : Value) : Nat → List Value → Prop
  | _, [] => False
  | i, [p] => ∃ x, ElementAt w v i x ∧ Stalls w p x
  | i, p :: t :: rest =>
    match p.marker? with
    | some .rest => (∃ left, Left w v i left ∧ Endless w left) ∨ ∃ xs, Elements w v xs ∧
        (Stalls w t (.vector (xs.drop i)) ∨ StallsItems w v (max i xs.length) rest)
    | some .whole => Stalls w t v ∨ StallsItems w v i rest
    | none => (∃ x, ElementAt w v i x ∧ Stalls w p x) ∨ StallsItems w v (i + 1) (t :: rest)

end

def Value.parts (s : Value) : List Value :=
  match s.split? with
  | some (x, rest) => [x, rest]
  | none => []

/-- Parts of a value are realized, in whatever order: the world that this comes to, and the values that
have come up. -/
inductive Unfolding (w : World) (v : Value) : World → List Value → Prop
  | start : Unfolding w v w [v]
  | force {u u' : World} {vs : List Value} {x s : Value} : Unfolding w v u vs → x ∈ vs →
      Forces u x (.value s u') → Unfolding w v u' (s.parts ++ vs)

/-- No part of the value fails to be realized. -/
def Untroubled (w : World) (v : Value) : Prop :=
  ∀ {u vs}, Unfolding w v u vs → ∀ x ∈ vs, ∃ s u', Forces u x (.value s u')

theorem Untroubled.of_invariant {w : World} {v : Value} (Known : World → List Value → Prop)
    (start : Known w [v])
    (step : ∀ {u vs}, Known u vs → ∀ x ∈ vs, ∃ s u', Forces u x (.value s u') ∧ Known u' (s.parts ++ vs)) :
    Untroubled w v := by
  intro u vs h
  have hk : Known u vs := by
    induction h with
    | start => exact start
    | force _ hx hf ih =>
      obtain ⟨s, u', hf', hk⟩ := step ih _ hx
      cases hf.unique hf'
      exact hk
  intro x hx
  obtain ⟨s, u', hf, -⟩ := step hk x hx
  exact ⟨s, u', hf⟩

def Supplied (vs : List Value) (v : Value) : Prop :=
  v ∈ vs ∨ v = .nil ∨ ∃ xs, v = .vector xs ∧ xs ⊆ vs

theorem Supplied.mono {vs vs' : List Value} {v : Value} (h : Supplied vs v) (hs : vs ⊆ vs') :
    Supplied vs' v := by
  rcases h with h | h | ⟨xs, hv, hx⟩
  · exact .inl (hs h)
  · exact .inr (.inl h)
  · exact .inr (.inr ⟨xs, hv, fun x hm => hs (hx hm)⟩)

namespace Unfolding

variable {w u u' : World} {v x left : Value} {vs xs : List Value} {n : Nat}

theorem uncons (h : Unfolding w v u vs) (hv : Untroubled w v) (hs : Supplied vs left) :
    ∃ s u' vs', Forces u left (.value s u') ∧ Unfolding w v u' vs' ∧ vs ⊆ vs' ∧
      ∀ x rest, s.split? = some (x, rest) → x ∈ vs' ∧ Supplied vs' rest := by
  rcases hs with hm | rfl | ⟨xs, rfl, hx⟩
  · obtain ⟨s, u', hf⟩ := hv h left hm
    refine ⟨s, u', s.parts ++ vs, hf, h.force hm hf, List.subset_append_right _ _, fun x rest he => ?_⟩
    simp only [Value.parts, he]
    exact ⟨by simp, .inl (by simp)⟩
  · exact ⟨.nil, u, vs, .of_not_lazy (v := .nil) nofun u, h, List.Subset.refl vs, nofun⟩
  · have hf := Forces.of_not_lazy (v := .vector xs) nofun u
    refine ⟨.vector xs, u, vs, hf, h, List.Subset.refl vs, fun x rest he => ?_⟩
    cases xs with
    | nil => cases he
    | cons y ys =>
      cases he
      exact ⟨hx (by simp), .inr (.inr ⟨ys, rfl, fun z hz => hx (by simp [hz])⟩)⟩

theorem taken (h : Unfolding w v u vs) (hx : x ∈ vs) (ht : Taken u x n xs u') :
    ∃ vs', Unfolding w v u' vs' ∧ vs ⊆ vs' ∧ xs ⊆ vs' := by
  induction ht generalizing vs with
  | enough u x => exact ⟨vs, h, List.Subset.refl vs, List.nil_subset vs⟩
  | ended hf hn => exact ⟨_, h.force hx hf, List.subset_append_right _ _, List.nil_subset _⟩
  | @next _ _ _ _ s y rest _ xs hf hn _ ih =>
    have hp : s.parts = [y, rest] := by simp only [Value.parts, hn]
    obtain ⟨vs', hu, hs, hxs⟩ := ih (h.force hx hf) (by simp [hp])
    refine ⟨vs', hu, fun z hz => hs (by simp [hz]), ?_⟩
    exact List.cons_subset.mpr ⟨hs (by simp [hp]), hxs⟩

theorem taken_vector (u : World) (xs : List Value) : Taken u (.vector xs) (xs.length + 1) xs u := by
  induction xs with
  | nil => exact .ended (.of_not_lazy (v := .vector []) nofun u) rfl
  | cons x xs ih => exact .next (.of_not_lazy (v := .vector (x :: xs)) nofun u) rfl ih

theorem exists_taken (h : Unfolding w v u vs) (hv : Untroubled w v) (hx : x ∈ vs) (n : Nat) :
    ∃ xs u', Taken u x n xs u' := by
  induction n generalizing u vs x with
  | zero => exact ⟨[], u, .enough u x⟩
  | succ n ih =>
    obtain ⟨s, u', hf⟩ := hv h x hx
    cases hn : s.split? with
    | none => exact ⟨[], u', .ended hf hn⟩
    | some pair =>
      have hrest : pair.2 ∈ s.parts ++ vs := by simp [Value.parts, hn]
      obtain ⟨xs, w', ht⟩ := ih (h.force hx hf) hrest
      exact ⟨pair.1 :: xs, w', .next hf hn ht⟩

theorem drain (h : Unfolding w v u vs) (hv : Untroubled w v) (hs : Supplied vs left) :
    (∃ n xs u' vs', Taken u left n xs u' ∧ xs.length < n ∧ Unfolding w v u' vs' ∧ vs ⊆ vs' ∧ xs ⊆ vs') ∨
      Endless u left := by
  rcases hs with hm | rfl | ⟨xs, rfl, hx⟩
  · by_cases hend : ∃ n xs u', Taken u left n xs u' ∧ xs.length < n
    · obtain ⟨n, xs, u', ht, hl⟩ := hend
      obtain ⟨vs', hu, hs, hxs⟩ := h.taken hm ht
      exact .inl ⟨n, xs, u', vs', ht, hl, hu, hs, hxs⟩
    · refine .inr fun n => ?_
      obtain ⟨xs, u', ht⟩ := h.exists_taken hv hm n
      have hge : ¬ xs.length < n := fun hl => hend ⟨n, xs, u', ht, hl⟩
      exact ⟨xs, u', ht, Nat.le_antisymm ht.length_le (Nat.not_lt.mp hge)⟩
  · have ht : Taken u .nil 1 [] u := .ended (.of_not_lazy (v := .nil) nofun u) rfl
    exact .inl ⟨1, [], u, vs, ht, Nat.zero_lt_one, h, List.Subset.refl vs, List.nil_subset vs⟩
  · exact .inl ⟨_, xs, u, vs, taken_vector u xs, Nat.lt_succ_self _, h, List.Subset.refl vs, hx⟩

end Unfolding

def Failure.isDestructuring : Failure → Bool
  | notDestructurable _ | unexpectedPattern _ | targetMissing _ => true
  | _ => false

theorem Eventually.bind_failure {α β : Type} {m : Nat → Eval α} {f : Nat → α → Eval β} {w u : World}
    {e : Failure} (hm : Eventually (fun l => m l w) (.failure e u)) :
    Eventually (fun l => (m l >>= f l) w) (.failure e u) := by
  obtain ⟨-, n, hn⟩ := hm
  refine ⟨nofun, n, fun l hl => ?_⟩
  have hl : m l w = .failure e u := hn l hl
  change (m l >>= f l) w = _
  rw [Eval.bind_apply, hl]

def World.inScope (ss : List Scope) (fs : List Frame) (u : World) (s : Scope) : World :=
  { u with frames := (s :: ss) :: fs }

/-- How a match ends that starts in the world `u`, where the values `vs` have come up: it binds what it
should, it is refused after binding a part of it, or it never ends. -/
inductive Attempt (w₀ : World) (v₀ : Value) (ss : List Scope) (fs : List Frame) (u : World)
    (vs : List Value) (s : Scope) (m : Nat → Eval Unit) (names : List String)
    (Good : World → List (String × Value) → Prop) (Bad Lost : World → Prop) : Prop
  | bound {u' : World} {vs' : List Value} {b : List (String × Value)} {es : List CellEvent} :
      Unfolding w₀ v₀ u' vs' → vs ⊆ vs' → Course u es u' → (∀ e ∈ b, e.1 ∈ names) →
      Eventually (fun l => m l (u.inScope ss fs s)) (.value () (u'.inScope ss fs (s.insertAll b))) →
      Good u' b → Attempt w₀ v₀ ss fs u vs s m names Good Bad Lost
  | refused {u' : World} {vs' : List Value} {b : List (String × Value)} {es : List CellEvent}
      {e : Failure} : Unfolding w₀ v₀ u' vs' → Course u es u' → (∀ e ∈ b, e.1 ∈ names) →
      Eventually (fun l => m l (u.inScope ss fs s)) (.failure e (u'.inScope ss fs (s.insertAll b))) →
      e.isDestructuring = true → Bad u' → Attempt w₀ v₀ ss fs u vs s m names Good Bad Lost
  | unending {u' : World} {vs' : List Value} {es : List CellEvent} {n : Nat} : Unfolding w₀ v₀ u' vs' →
      Course u es u' → (∀ l, n ≤ l → m l (u.inScope ss fs s) = .outOfFuel) → Lost u' →
      Attempt w₀ v₀ ss fs u vs s m names Good Bad Lost

section

variable {w₀ : World} {v₀ : Value} {ss : List Scope} {fs : List Frame}

namespace Attempt

variable {u u' : World} {vs vs' : List Value} {s : Scope} {names : List String}
  {Good : World → List (String × Value) → Prop} {Bad Lost : World → Prop}

theorem done (hu : Unfolding w₀ v₀ u vs) (hg : Good u []) :
    Attempt w₀ v₀ ss fs u vs s (fun _ => pure ()) names Good Bad Lost :=
  .bound (b := []) hu (List.Subset.refl vs) (.start u) (by simp) (.pure () _) hg

theorem refuse (hu : Unfolding w₀ v₀ u vs) {e : Failure} (he : e.isDestructuring = true) (hb : Bad u) :
    Attempt w₀ v₀ ss fs u vs s (fun _ => .fail e) names Good Bad Lost :=
  .refused (b := []) hu (.start u) (by simp) ⟨nofun, 0, fun _ _ => rfl⟩ he hb

theorem after {α : Type} {pre : Nat → Eval α} {m : Nat → α → Eval Unit} {a : α} {es : List CellEvent}
    (hp : Eventually (fun l => pre l (u.inScope ss fs s)) (.value a (u'.inScope ss fs s)))
    (hc : Course u es u') (hs : vs ⊆ vs')
    (h : Attempt w₀ v₀ ss fs u' vs' s (fun l => m l a) names Good Bad Lost) :
    Attempt w₀ v₀ ss fs u vs s (fun l => pre l >>= m l) names Good Bad Lost := by
  cases h with
  | bound hu hs' hc' hn hm hg =>
    refine .bound hu (fun x hx => hs' (hs hx)) (hc.append hc') hn ?_ hg
    exact (Eventually.bind_iff hp).mpr hm
  | refused hu hc' hn hm he hb =>
    exact .refused hu (hc.append hc') hn ((Eventually.bind_iff hp).mpr hm) he hb
  | @unending _ _ _ n hu hc' hm hl =>
    obtain ⟨-, n', hn⟩ := hp
    refine .unending (n := max n n') hu (hc.append hc') (fun l hl => ?_) hl
    exact (Eval.bind_of_value (hn l (by omega))).trans (hm l (by omega))

theorem imp {m : Nat → Eval Unit} {Good' : World → List (String × Value) → Prop} {Bad' Lost' : World → Prop}
    (h : Attempt w₀ v₀ ss fs u vs s m names Good' Bad' Lost')
    (hg : ∀ {u' bs es}, Course u es u' → Good' u' bs → Good u' bs)
    (hb : ∀ {u' es}, Course u es u' → Bad' u' → Bad u')
    (hl : ∀ {u' es}, Course u es u' → Lost' u' → Lost u') :
    Attempt w₀ v₀ ss fs u vs s m names Good Bad Lost := by
  cases h with
  | bound hu hs hc hn hm h => exact .bound hu hs hc hn hm (hg hc h)
  | refused hu hc hn hm he h => exact .refused hu hc hn hm he (hb hc h)
  | unending hu hc hm h => exact .unending hu hc hm (hl hc h)

theorem bind {m m' : Nat → Eval Unit} {first rest : List String}
    {Good₁ Good₂ : World → List (String × Value) → Prop} {Bad₁ Bad₂ Lost₁ Lost₂ : World → Prop}
    (h : Attempt w₀ v₀ ss fs u vs s m first Good₁ Bad₁ Lost₁)
    (next : ∀ {u' vs' cs es}, Unfolding w₀ v₀ u' vs' → vs ⊆ vs' → Course u es u' →
      Attempt w₀ v₀ ss fs u' vs' (s.insertAll cs) m' rest Good₂ Bad₂ Lost₂)
    (hg : ∀ {u' u'' cs ds es es'}, Course u es u' → Course u' es' u'' → Good₁ u' cs → Good₂ u'' ds →
      Good u'' (cs ++ ds))
    (hb : ∀ {u' es}, Course u es u' → Bad₁ u' ∨ Bad₂ u' → Bad u')
    (hl : ∀ {u' es}, Course u es u' → Lost₁ u' ∨ Lost₂ u' → Lost u') :
    Attempt w₀ v₀ ss fs u vs s (fun l => m l >>= fun _ => m' l) (first ++ rest) Good Bad Lost := by
  cases h with
  | @bound _ _ cs _ hu hs hc hn hm h₁ =>
    have hnames {ds : List (String × Value)} (hd : ∀ b ∈ ds, b.1 ∈ rest) :
        ∀ b ∈ cs ++ ds, b.1 ∈ first ++ rest := by
      intro b hb
      rcases List.mem_append.mp hb with hb | hb
      · exact List.mem_append_left _ (hn b hb)
      · exact List.mem_append_right _ (hd b hb)
    cases next hu hs hc with
    | @bound _ _ ds _ hu' hs' hc' hd hm' h₂ =>
      refine .bound (b := cs ++ ds) hu' (fun x hx => hs' (hs hx)) (hc.append hc') (hnames hd) ?_
        (hg hc hc' h₁ h₂)
      rw [Bindings.insertAll_append]
      exact (Eventually.bind_iff hm).mpr hm'
    | @refused _ _ ds _ _ hu' hc' hd hm' he h₂ =>
      refine .refused (b := cs ++ ds) hu' (hc.append hc') (hnames hd) ?_ he
        (hb (hc.append hc') (.inr h₂))
      rw [Bindings.insertAll_append]
      exact (Eventually.bind_iff hm).mpr hm'
    | @unending _ _ _ n hu' hc' hm' h₂ =>
      obtain ⟨-, n', hn'⟩ := hm
      refine .unending (n := max n n') hu' (hc.append hc') (fun l hl => ?_) (hl (hc.append hc') (.inr h₂))
      exact (Eval.bind_of_value (hn' l (by omega))).trans (hm' l (by omega))
  | refused hu hc hn hm he h₁ =>
    exact .refused hu hc (fun b hb => List.mem_append_left _ (hn b hb)) hm.bind_failure he
      (hb hc (.inl h₁))
  | unending hu hc hm h₁ =>
    exact .unending hu hc (fun l hl => by rw [Eval.bind_apply, hm l hl]) (hl hc (.inl h₁))

theorem element {whole left : Value} {i : Nat} {m : Nat → Value × Value → Eval Unit}
    (hv : Untroubled w₀ v₀) (hu : Unfolding w₀ v₀ u vs) (hl : Supplied vs left) (hi : Left u whole i left)
    (next : ∀ {u' vs' x left'}, Unfolding w₀ v₀ u' vs' → vs ⊆ vs' → Supplied vs' x →
      Supplied vs' left' → ElementAt u' whole i x → Left u' whole (i + 1) left' →
      Attempt w₀ v₀ ss fs u' vs' s (fun l => m l (x, left')) names Good Bad Lost) :
    Attempt w₀ v₀ ss fs u vs s (fun l => (Kernel.withFuel l).nextElement left >>= m l) names Good Bad
      Lost := by
  obtain ⟨link, u', vs', hf, hu', hs, hparts⟩ := hu.uncons hv hl
  obtain ⟨es, hc⟩ := hf.course
  have hi' := hi.mono hc
  cases hn : link.split? with
  | none =>
    obtain ⟨hx, hleft⟩ := hi'.ended (hn ▸ hf.atHand)
    refine .after (a := (.nil, .nil)) ?_ hc hs
      (next hu' hs (.inr (.inl rfl)) (.inr (.inl rfl)) hx hleft)
    refine (hf.withFrames ((s :: ss) :: fs)).uncons_iff.mpr ?_
    rw [hn]
    exact .pure _ _
  | some pair =>
    obtain ⟨x, rest⟩ := pair
    obtain ⟨hx, hleft⟩ := hi'.next (hn ▸ hf.atHand)
    obtain ⟨hmem, hrest⟩ := hparts x rest hn
    refine .after (a := (x, rest)) ?_ hc hs (next hu' hs (.inl hmem) hrest hx hleft)
    refine (hf.withFrames ((s :: ss) :: fs)).uncons_iff.mpr ?_
    rw [hn]
    exact .pure _ _

theorem drained {whole left : Value} {i : Nat} {m : Nat → List Value → Eval Unit}
    (hv : Untroubled w₀ v₀) (hu : Unfolding w₀ v₀ u vs) (hl : Supplied vs left) (hi : Left u whole i left)
    (hlost : Endless u left → Lost u)
    (next : ∀ {u' vs' xs}, Unfolding w₀ v₀ u' vs' → vs ⊆ vs' → xs.drop i ⊆ vs' → Elements u' whole xs →
      Attempt w₀ v₀ ss fs u' vs' s (fun l => m l (xs.drop i)) names Good Bad Lost) :
    Attempt w₀ v₀ ss fs u vs s (fun l => (Kernel.withFuel l).elements left >>= m l) names Good Bad
      Lost := by
  rcases hu.drain hv hl with ⟨n, ys, u', vs', ht, hn, hu', hs, hys⟩ | hend
  · obtain ⟨es, hc⟩ := ht.course
    obtain ⟨xs, hx, rfl⟩ := (hi.mono hc).drain (ht.elements hn)
    exact .after ((ht.withFrames ((s :: ss) :: fs)).eventually_elements hn) hc hs (next hu' hs hys hx)
  · refine .unending (n := 0) hu (.start u) (fun l _ => ?_) (hlost hend)
    rw [Eval.bind_apply, World.inScope, (hend.withFrames ((s :: ss) :: fs)).elements_eq_outOfFuel l]

end Attempt

mutual

theorem attempt_destructure (hv : Untroubled w₀ v₀) : ∀ (p : Value) {u : World} {vs : List Value}
    {v : Value} {s : Scope}, Unfolding w₀ v₀ u vs → Supplied vs v →
    Attempt w₀ v₀ ss fs u vs s (fun l => (Kernel.withFuel l).destructure p v) p.targets
      (fun u' bs => Fits u' p v bs) (fun u' => ¬ (p.isPattern = true ∧ Meets u' p v))
      (fun u' => Stalls u' p v)
  | .atom (.symbol name), u, vs, v, s, hu, _ => by
    refine .bound (b := [(name, v)]) hu (List.Subset.refl vs) (.start u) (by simp [Value.targets]) ?_
      (by simp only [Fits])
    exact .of_forall (n := 0) fun l _ => rfl
  | .vector ps, u, vs, v, s, hu, hs => by
    simp only [Kernel.destructure, Value.targets, Value.isPattern, Fits, Meets, Stalls]
    by_cases hq : v.isSequential = true
    · simp only [hq, if_true, true_and]
      exact attempt_items hv ps hu hs hs (.start v)
    · simp only [if_neg hq]
      exact .refuse hu rfl fun h => hq h.2.1
  | .atom .nil, _, _, _, _, hu, _ | .atom (.bool _), _, _, _, _, hu, _
  | .atom (.int _), _, _, _, _, hu, _ | .atom (.str _), _, _, _, _, hu, _
  | .atom (.char _), _, _, _, _, hu, _ | .atom (.keyword _), _, _, _, _, hu, _
  | .list _, _, _, _, _, hu, _ | .map _, _, _, _, _, hu, _ | .cons _ _, _, _, _, _, hu, _
  | .lazy _, _, _, _, _, hu, _ | .callable _ _, _, _, _, _, hu, _ =>
    .refuse hu rfl fun h => Bool.noConfusion h.1

theorem attempt_items (hv : Untroubled w₀ v₀) : ∀ (ps : List Value) {u : World} {vs : List Value}
    {whole left : Value} {i : Nat} {s : Scope}, Unfolding w₀ v₀ u vs → Supplied vs whole →
    Supplied vs left → Left u whole i left →
    Attempt w₀ v₀ ss fs u vs s (fun l => (Kernel.withFuel l).destructureItems whole left ps)
      (Value.itemTargets ps) (fun u' bs => FitsItems u' whole i ps bs)
      (fun u' => ¬ (Value.arePatterns ps = true ∧ MeetsItems u' whole i ps))
      (fun u' => StallsItems u' whole i ps)
  | [], u, vs, whole, left, i, s, hu, _, _, _ => by
    simp only [Kernel.destructureItems]
    exact .done hu (by simp only [FitsItems])
  | [p], u, vs, whole, left, i, s, hu, hw, hl, hi => by
    simp only [Kernel.destructureItems, Value.itemTargets, Value.arePatterns, FitsItems, MeetsItems,
      StallsItems]
    cases hm : p.marker? with
    | some marker => exact .refuse hu rfl fun h => Bool.noConfusion h.1
    | none =>
      refine .element hv hu hl hi fun {u' vs' x left'} hu' hs hx _ hxi hi' => ?_
      refine (attempt_destructure hv p hu' hx).imp ?_ ?_ ?_
      · intro u'' bs es hc hf
        exact ⟨rfl, x, hxi.mono hc, hf⟩
      · rintro u'' es hc hb ⟨hp, hmeets⟩
        exact hb ⟨hp, hmeets x (hxi.mono hc)⟩
      · intro u'' es hc hlost
        exact ⟨x, hxi.mono hc, hlost⟩
  | p :: t :: rest, u, vs, whole, left, i, s, hu, hw, hl, hi => by
    simp only [Kernel.destructureItems, Value.itemTargets, Value.arePatterns, FitsItems, MeetsItems,
      StallsItems]
    cases hm : p.marker? with
    | none =>
      refine .element hv hu hl hi fun {u' vs' x left'} hu' hs hx hl' hxi hi' => ?_
      refine (attempt_destructure hv p hu' hx).bind (fun hu'' hs'' hc =>
        attempt_items hv (t :: rest) hu'' ((hw.mono hs).mono hs'') (hl'.mono hs'') (hi'.mono hc)) ?_ ?_ ?_
      · intro u₁ u₂ cs ds es es' hc hc' hf hr
        exact ⟨x, cs, ds, (hxi.mono hc).mono hc', hf.mono hc', hr, rfl⟩
      · rintro u₁ es hc (hb | hb) ⟨hp, hmeets⟩ <;> rw [Bool.and_eq_true] at hp
        · exact hb ⟨hp.1, hmeets.1 x (hxi.mono hc)⟩
        · exact hb ⟨hp.2, hmeets.2⟩
      · intro u₁ es hc hlost
        exact hlost.imp (fun h => ⟨x, hxi.mono hc, h⟩) id
    | some marker =>
      cases marker with
      | rest =>
        refine .drained hv hu hl hi (fun hend => .inl ⟨left, hi, hend⟩) fun {u' vs' xs} hu' hs hsub hxs => ?_
        refine (attempt_destructure hv t hu' (.inr (.inr ⟨_, rfl, hsub⟩))).bind (fun hu'' hs'' hc =>
          attempt_items hv rest hu'' ((hw.mono hs).mono hs'') (.inr (.inl rfl))
            (.of_elements (hxs.mono hc) (Nat.le_max_right i xs.length))) ?_ ?_ ?_
        · intro u₁ u₂ cs ds es es' hc hc' hf hr
          exact ⟨xs, cs, ds, (hxs.mono hc).mono hc', hf.mono hc', hr, rfl⟩
        · rintro u₁ es hc (hb | hb) ⟨hp, hmeets⟩ <;> rw [Bool.and_eq_true] at hp
          · exact hb ⟨hp.1, (hmeets xs (hxs.mono hc)).1⟩
          · exact hb ⟨hp.2, (hmeets xs (hxs.mono hc)).2⟩
        · intro u₁ es hc hlost
          exact .inr ⟨xs, hxs.mono hc, hlost⟩
      | whole =>
        refine (attempt_destructure hv t hu hw).bind (fun hu'' hs'' hc =>
          attempt_items hv rest hu'' (hw.mono hs'') (hl.mono hs'') (hi.mono hc)) ?_ ?_ ?_
        · intro u₁ u₂ cs ds es es' hc hc' hf hr
          exact ⟨cs, ds, hf.mono hc', hr, rfl⟩
        · rintro u₁ es hc (hb | hb) ⟨hp, hmeets⟩ <;> rw [Bool.and_eq_true] at hp
          · exact hb ⟨hp.1, hmeets.1⟩
          · exact hb ⟨hp.2, hmeets.2⟩
        · intro u₁ es _ hlost
          exact hlost

end

end

/-- What matching `v` against the pattern `p` comes to, where `s` is the innermost scope, `u` the world
that realizing parts of `v` alone leads to, and `bs` what was bound. -/
structure Matching (w : World) (p v : Value) (s : Scope) (ss : List Scope) (fs : List Frame)
    (r : Outcome Unit) (u : World) (bs : List (String × Value)) : Prop where
  runs : Eventually (fun l => (Kernel.withFuel l).destructure p v w) r
  realizing : ∃ vs, Unfolding w v u vs
  world : r.world? = some (u.inScope ss fs (s.insertAll bs))
  names : ∀ b ∈ bs, b.1 ∈ p.targets
  lookup : ∀ name, (s.insertAll bs).get? name =
    ((bs.reverse.find? (·.1 = name)).map Prod.snd).or (s.get? name)
  succeeds_iff : (∃ w', r = .value () w') ↔ p.isPattern = true ∧ Meets u p v
  fits : (∃ w', r = .value () w') → Fits u p v bs
  failure : ∀ {e w'}, r = .failure e w' → e.isDestructuring = true

theorem destructure_follows_positions {w : World} {s : Scope} {ss : List Scope} {fs : List Frame}
    (hw : w.frames = (s :: ss) :: fs) (p : Value) {v : Value} (hv : Untroubled w v) :
    (∃ r u bs, Matching w p v s ss fs r u bs) ∨
      (∃ u vs, Unfolding w v u vs ∧ Stalls u p v) ∧
        ∀ l, (Kernel.withFuel l).destructure p v w = .outOfFuel := by
  have hself : w.inScope ss fs s = w := by rw [World.inScope, ← hw]
  have hstart : Supplied [v] v := .inl (List.mem_singleton_self v)
  have hattempt : Attempt w v ss fs w [v] s _ _ _ _ _ := attempt_destructure hv p .start hstart
  cases hattempt with
  | @bound u' vs' bs _ hu _ _ hn hm hg =>
    rw [hself] at hm
    exact .inl ⟨_, u', bs,
      { runs := hm, realizing := ⟨vs', hu⟩, world := rfl, names := hn, lookup := s.get?_insertAll bs
        succeeds_iff := ⟨fun _ => hg.suits, fun _ => ⟨_, rfl⟩⟩, fits := fun _ => hg, failure := nofun }⟩
  | @refused u' vs' bs _ e hu _ hn hm he hb =>
    rw [hself] at hm
    refine .inl ⟨_, u', bs,
      { runs := hm, realizing := ⟨vs', hu⟩, world := rfl, names := hn, lookup := s.get?_insertAll bs
        succeeds_iff := ⟨nofun, fun h => absurd h hb⟩, fits := nofun, failure := ?_ }⟩
    rintro e' w' ⟨⟩
    exact he
  | @unending u' vs' _ n hu _ hm hl =>
    rw [hself] at hm
    refine .inr ⟨⟨u', vs', hu, hl⟩, fun l => ?_⟩
    have hle := (Kernel.earlier_follows_of_le (Nat.le_max_left l n)).open_destructure (i := ()) p v w
    exact hle.elim id fun h => h.trans (hm _ (Nat.le_max_right l n))

def delayed : Value := .cons (.int 5) (.lazy 0)

def delayedWorld (state : CellState) : World :=
  { World.empty with frames := [[.empty]], cells := #[⟨0, state⟩] }

def delayedBody : CellState := .unrealized (.repeating (.int 7) (some 0))

def DelayedStage (u : World) (vs : List Value) : Prop :=
  (u = delayedWorld delayedBody ∨ u = delayedWorld (.realized (.list []))) ∧
    vs ⊆ [delayed, .int 5, .lazy 0]

theorem untroubled_delayed : Untroubled (delayedWorld delayedBody) delayed := by
  refine Untroubled.of_invariant DelayedStage ⟨.inl rfl, by simp⟩ ?_
  rintro u vs ⟨hu, hvs⟩ x hx
  have hlinks (s : Value) (hs : s.parts ⊆ [delayed, .int 5, .lazy 0]) :
      s.parts ++ vs ⊆ [delayed, .int 5, .lazy 0] := List.append_subset.mpr ⟨hs, hvs⟩
  have hx := hvs hx
  simp only [List.mem_cons, List.not_mem_nil, or_false] at hx
  rcases hx with rfl | rfl | rfl
  · have hparts : delayed.parts ⊆ [delayed, .int 5, .lazy 0] := List.subset_cons_self _ _
    exact ⟨delayed, u, .of_not_lazy (v := delayed) nofun u, hu, hlinks delayed hparts⟩
  · exact ⟨.int 5, u, .of_not_lazy (v := .int 5) nofun u, hu, hlinks (.int 5) (List.nil_subset _)⟩
  · refine ⟨.list [], delayedWorld (.realized (.list [])), ?_, .inr rfl, hlinks (.list []) (List.nil_subset _)⟩
    rcases hu with rfl | rfl
    · exact .of_force (n := 4) rfl
    · exact .of_force (n := 4) rfl

def delayedPattern : Value :=
  .vector [.symbol "a", .symbol "&", .vector [.symbol "b", .symbol "c"], .keyword ":as", .symbol "all"]

theorem destructure_follows_positions_delayed :
    Untroubled (delayedWorld delayedBody) delayed ∧ ∃ u bs, Fits u delayedPattern delayed bs ∧
      Eventually (fun l => (Kernel.withFuel l).destructure delayedPattern delayed (delayedWorld delayedBody))
        (.value () (u.inScope [] [] (Bindings.empty.insertAll bs))) := by
  refine ⟨untroubled_delayed, ?_⟩
  rcases destructure_follows_positions (w := delayedWorld delayedBody) rfl delayedPattern untroubled_delayed
    with ⟨r, u, bs, h⟩ | ⟨-, hl⟩
  · have hs : ∃ w', r = .value () w' := by
      refine h.succeeds_iff.mpr ⟨rfl, ?_⟩
      simp [delayedPattern, Meets, MeetsItems, Value.marker?, Value.isSequential, delayed]
    have hfits := h.fits hs
    obtain ⟨w', rfl⟩ := hs
    cases h.world
    exact ⟨u, bs, hfits, h.runs⟩
  · cases hl 6

end LazyLisp
