import LazyLisp.Proofs.Entries
import LazyLisp.Proofs.Equality
import LazyLisp.Proofs.Fuel
import LazyLisp.Proofs.Source.Keys

namespace LazyLisp

noncomputable def equalIn (w : World) (a b : Value) : Bool :=
  @decide (Equal w a b) (Classical.propDecidable _)

section Sameness

variable {w w' : World} {a b : Value} {r : List (Value × Value)} {key : Value}

theorem equalIn_iff : equalIn w a b = true ↔ Equal w a b :=
  @decide_eq_true_iff _ (Classical.propDecidable _)

theorem Complete.equalIn_iff_alike (ha : Complete w (Equal w) a) (hb : Complete w (Equal w) b) :
    equalIn w a b = true ↔ Alike w a b :=
  equalIn_iff.trans (ha.equal_iff hb)

theorem sameness_equalIn (w : World) : Entries.Sameness (equalIn w) (Complete w (Equal w)) where
  refl := fun ha => (ha.equalIn_iff_alike ha).mpr ha.alike_refl
  symm := fun ha hb hab =>
    (hb.equalIn_iff_alike ha).mpr ((ha.equalIn_iff_alike hb).mp hab).symm
  trans := fun ha hb hc hab hbc =>
    (ha.equalIn_iff_alike hc).mpr
      (((ha.equalIn_iff_alike hb).mp hab).trans ((hb.equalIn_iff_alike hc).mp hbc))

theorem Answers.equalIn_eq {answer : Bool} (h : Answers w a b answer) : equalIn w a b = answer := by
  rw [Bool.eq_iff_iff, equalIn_iff]
  constructor
  · intro he
    exact h.unique he
  · rintro rfl
    exact h

theorem Complete.answers (ha : Complete w (Equal w) a) (hb : Complete w (Equal w) b) :
    Answers w a b (equalIn w a b) := by
  rcases (ha.of_equal.decided hb.of_equal).equal_or_unequal with h | h <;> rwa [h.equalIn_eq]

theorem Answers.of_value {n : Nat} {answer : Bool}
    (h : (Kernel.withFuel n).isEqual a b w = .value answer w) : Answers w a b answer := by
  refine ⟨n, fun m hm => ?_⟩
  have hb := (Kernel.earlier_follows_of_le hm).rel_isEqual (i := ()) a b
  rw [Below.eq_of_ne hb (w := w) (by rw [h]; exact nofun), h]

theorem exists_isSame_eq (hr : ∀ e ∈ r, Complete w (Equal w) e.1) (hk : Complete w (Equal w) key) :
    ∃ n, ∀ m, n ≤ m → ∀ e ∈ r,
      (Kernel.withFuel m).isSame e.1 key w = .value (equalIn w e.1 key) w := by
  induction r with
  | nil => exact ⟨0, fun _ _ => nofun⟩
  | cons e r ih =>
    obtain ⟨n, hn⟩ := (hr e (by simp)).answers hk
    obtain ⟨n', hn'⟩ := ih fun e he => hr e (by simp [he])
    refine ⟨max n n', fun m hm => List.forall_mem_cons.mpr ⟨?_, hn' m (by omega)⟩⟩
    exact orFalse_of_value (hn m (by omega))

theorem Complete.later {evs : List CellEvent} (h : Complete w (Equal w) a) (hc : Course w evs w') :
    Complete w' (Equal w') a :=
  (h.of_equal.mono hc).of_alike

theorem Complete.equalIn_later {evs : List CellEvent} (ha : Complete w (Equal w) a)
    (hb : Complete w (Equal w) b) (hc : Course w evs w') : equalIn w' a b = equalIn w a b := by
  rw [Bool.eq_iff_iff, (ha.later hc).equalIn_iff_alike (hb.later hc), ha.equalIn_iff_alike hb]
  constructor
  · intro h
    exact alike_of_later hc h ha hb
  · intro h
    exact h.mono hc

end Sameness

namespace Kernel

variable {k : Kernel} {w : World} {same : Value → Value → Bool} {r : List (Value × Value)} {key : Value}

theorem putEntry_of_isSame (value : Value)
    (h : ∀ e ∈ r, k.isSame e.1 key w = .value (same e.1 key) w) :
    k.putEntry r key value w = .value (Entries.put same key value r) w := by
  induction r with
  | nil => rfl
  | cons e r ih =>
    obtain ⟨key', value'⟩ := e
    rw [putEntry, Eval.bind_of_value (h (key', value') (by simp)), Entries.put]
    cases same key' key with
    | true => rfl
    | false =>
      simp only [Bool.false_eq_true, if_false]
      rw [Eval.bind_of_value (ih fun e he => h e (by simp [he])), Eval.pure_apply]

theorem getEntry_of_isSame (h : ∀ e ∈ r, k.isSame e.1 key w = .value (same e.1 key) w) :
    k.getEntry r key w = .value ((r.find? fun e => same e.1 key).map Prod.snd) w := by
  have hf : findEntry (fun key' => k.isSame key' key) r w = _ :=
    findEntry_eq (p := fun v => same v key = true) fun e he => by rw [h e he, Bool.decide_eq_true]
  rw [getEntry, hf]
  simp only [Bool.decide_eq_true]

theorem assoc_eq_putPairs {coll : Value} {args : List Value} (hc : coll = .map r ∨ coll = .nil ∧ r = [])
    (hargs : args.length % 2 = 0) :
    k.assoc coll args = k.putPairs r args >>= fun es => pure (.map es) := by
  rcases hc with rfl | ⟨rfl, rfl⟩ <;> exact if_pos hargs

theorem course_of_eval {n : Nat} {form v : Value} {w' : World}
    (h : (withFuel n).eval form w = .value v w') : ∃ evs, Course w evs w' :=
  ((evolution_passes.follows n).eval form (fun _ _ => trivial) w w' (by rw [h]; rfl)).2

theorem course_of_collect {n : Nat} {v : Value} {xs : List Value} {w' : World}
    (h : (withFuel n).collect v w = .value xs w') : ∃ evs, Course w evs w' :=
  ((evolution_passes.follows n).rel_collect (i := ()) v w w' (by rw [h]; rfl)).2

theorem putEntry_unique {n n' : Nat} {value : Value} {r₁ r₂ : List (Value × Value)} {w₁ w₂ : World}
    (h : (withFuel n).putEntry r key value w = .value r₁ w₁)
    (h' : ∀ m, n' ≤ m → (withFuel m).putEntry r key value w = .value r₂ w₂) : r₁ = r₂ ∧ w₁ = w₂ := by
  have hb := (earlier_follows_of_le (Nat.le_max_left n n')).rel_putEntry (i := ()) r key value
  have he := Below.eq_of_ne hb (w := w) (by rw [h]; exact nofun)
  rw [h' _ (Nat.le_max_right n n'), h] at he
  cases he
  exact ⟨rfl, rfl⟩

end Kernel

structure Insertion where
  world : World
  key : Value
  value : Value

namespace Insertion

def Finite (e : Insertion) : Prop := Complete e.world (Equal e.world) e.key

def pair (e : Insertion) : Value × Value := (e.key, e.value)

end Insertion

def insertions (w : World) (ps : List (Value × Value)) : List Insertion :=
  ps.map fun p => ⟨w, p.1, p.2⟩

def entryArgs (ps : List (Value × Value)) : List Value := ps.flatMap fun p => [p.1, p.2]

theorem length_entryArgs (ps : List (Value × Value)) : (entryArgs ps).length % 2 = 0 := by
  simp [entryArgs]

/-- How the entries of a map come about, up to a moment. Anything may happen between two insertions. -/
inductive Built : World → List Insertion → List (Value × Value) → Prop
  | empty (w : World) : Built w [] []
  | insert {w w' : World} {es : List Insertion} {r r' : List (Value × Value)} {n : Nat}
      {key value : Value} : Built w es r →
      (Kernel.withFuel n).putEntry r key value w = .value r' w' →
      Built w' (es ++ [⟨w, key, value⟩]) r'
  | meanwhile {w w' : World} {es : List Insertion} {r : List (Value × Value)} {evs : List CellEvent} :
      Built w es r → Course w evs w' → Built w' es r

/-- The entries of a map are what the insertions say: no two keys are equal, under a key stands what was put
last under an equal one, the keys are those put first in their order, and there are as many as unequal
keys were put. One more entry is taken. -/
structure Refines (w : World) (es : List Insertion) (r : List (Value × Value)) : Prop where
  distinct : r.Pairwise fun d e => Unequal w d.1 e.1 ∧ Unequal w e.1 d.1
  get : ∀ key, Complete w (Equal w) key → ∃ n, ∀ m, n ≤ m → (Kernel.withFuel m).getEntry r key w =
    .value ((es.reverse.find? fun e => equalIn w e.key key).map Insertion.value) w
  keys : r.map Prod.fst =
    (es.map Insertion.key).eraseDupsBy fun later earlier => equalIn w earlier later
  count : r.length = (Entries.kinds (equalIn w) (es.map Insertion.key)).ncard
  accepts : ∀ key value, Complete w (Equal w) key → ∃ r' n, ∀ m, n ≤ m →
    (Kernel.withFuel m).putEntry r key value w = .value r' w

noncomputable def placed (w : World) (es : List Insertion) : List (Value × Value) :=
  Entries.putAll (equalIn w) (es.map Insertion.pair)

section Placed

variable {w : World} {es : List Insertion} {r : List (Value × Value)} {key : Value}

theorem complete_placed (hes : ∀ e ∈ es, Complete w (Equal w) e.key) :
    ∀ e ∈ placed w es, Complete w (Equal w) e.1 :=
  Entries.forall_fst_putAll (List.forall_mem_map.mpr hes)

theorem exists_putEntry_placed (hes : ∀ e ∈ es, Complete w (Equal w) e.key)
    (hk : Complete w (Equal w) key) (value : Value) :
    ∃ n, ∀ m, n ≤ m → (Kernel.withFuel m).putEntry (placed w es) key value w =
      .value (placed w (es ++ [⟨w, key, value⟩])) w := by
  obtain ⟨n, hn⟩ := exists_isSame_eq (complete_placed hes) hk
  refine ⟨n, fun m hm => (Kernel.putEntry_of_isSame value (hn m hm)).trans ?_⟩
  rw [placed, placed, List.map_append]
  exact congrArg (Outcome.value · w) (Entries.putAll_concat _ _ (key, value)).symm

theorem refines_placed (hes : ∀ e ∈ es, Complete w (Equal w) e.key) : Refines w es (placed w es) where
  distinct := by
    refine (Entries.pairwise_putAll _ _).imp_of_mem fun {d e} hd he hde => ?_
    have hd := complete_placed hes d hd
    have he := complete_placed hes e he
    have hed : equalIn w e.1 d.1 = false := by
      by_contra hed
      rw [(sameness_equalIn w).symm he hd (by simpa using hed)] at hde
      cases hde
    have hanswer := hd.answers he
    have hanswer' := he.answers hd
    rw [hde] at hanswer
    rw [hed] at hanswer'
    exact ⟨hanswer, hanswer'⟩
  get := by
    intro key hk
    obtain ⟨n, hn⟩ := exists_isSame_eq (complete_placed hes) hk
    refine ⟨n, fun m hm => (Kernel.getEntry_of_isSame (hn m hm)).trans ?_⟩
    rw [placed, (sameness_equalIn w).find?_putAll (List.forall_mem_map.mpr hes) hk, ← List.map_reverse,
      List.find?_map, Option.map_map]
    rfl
  keys := by
    rw [placed, Entries.map_fst_putAll, List.map_map]
    rfl
  count := by
    rw [placed, (sameness_equalIn w).length_putAll (List.forall_mem_map.mpr hes), List.map_map]
    rfl
  accepts := by
    intro key value hk
    exact ⟨_, exists_putEntry_placed hes hk value⟩

end Placed

namespace Built

variable {w w' : World} {es : List Insertion} {r r' : List (Value × Value)} {n : Nat}

theorem eq_placed (h : Built w es r) (hes : ∀ e ∈ es, e.Finite) :
    (∀ e ∈ es, Complete w (Equal w) e.key) ∧ r = placed w es := by
  induction h with
  | empty w => exact ⟨nofun, rfl⟩
  | @insert w w' es r r' n key value _ hp ih =>
    obtain ⟨hc, rfl⟩ := ih fun e he => hes e (by simp [he])
    have hk : Complete w (Equal w) key := hes ⟨w, key, value⟩ (by simp)
    -- Comparing finite keys changes nothing, so the entry was put in the world that is left.
    obtain ⟨n', hn'⟩ := exists_putEntry_placed hc hk value
    obtain ⟨rfl, rfl⟩ := Kernel.putEntry_unique hp hn'
    exact ⟨List.forall_mem_append.mpr ⟨hc, List.forall_mem_singleton.mpr hk⟩, rfl⟩
  | @meanwhile w w' es r evs _ hcourse ih =>
    obtain ⟨hc, rfl⟩ := ih hes
    refine ⟨fun e he => (hc e he).later hcourse, Entries.putAll_congr ?_⟩
    refine List.forall_mem_map.mpr fun d hd => List.forall_mem_map.mpr fun e he => ?_
    exact ((hc d hd).equalIn_later (hc e he) hcourse).symm

theorem refines (h : Built w es r) (hes : ∀ e ∈ es, e.Finite) : Refines w es r := by
  obtain ⟨hc, rfl⟩ := h.eq_placed hes
  exact refines_placed hc

theorem putPairs (h : Built w es r) (hes : ∀ e ∈ es, e.Finite) {ps : List (Value × Value)}
    (hps : ∀ e ∈ insertions w ps, e.Finite) :
    ∃ r' n, (∀ m, n ≤ m →
        (Kernel.withFuel m).putPairs r (entryArgs ps) w = .value r' w) ∧
      Built w (es ++ insertions w ps) r' := by
  induction ps generalizing es r with
  | nil => exact ⟨r, 0, fun _ _ => rfl, by simpa [insertions] using h⟩
  | cons p ps ih =>
    obtain ⟨hp, hps⟩ := List.forall_mem_cons.mp hps
    obtain ⟨r₁, n₁, hn₁⟩ := (h.refines hes).accepts p.1 p.2 hp
    obtain ⟨r₂, n₂, hn₂, hr₂⟩ := ih (h.insert (hn₁ n₁ (Nat.le_refl _)))
      (List.forall_mem_append.mpr ⟨hes, List.forall_mem_singleton.mpr hp⟩) hps
    refine ⟨r₂, max n₁ n₂, fun m hm => ?_, by simpa [insertions] using hr₂⟩
    change (Kernel.withFuel m).putPairs r (p.1 :: p.2 :: entryArgs ps) w = _
    rw [Kernel.putPairs, Eval.bind_of_value (hn₁ m (by omega))]
    exact hn₂ m (by omega)

def Evaluated (n : Nat) (form : Value × Value) (e : Insertion) : Prop :=
  ∃ u v, (Kernel.withFuel n).eval form.1 u = .value e.key v ∧
    (Kernel.withFuel n).eval form.2 v = .value e.value e.world

theorem evalEntries (h : Built w es r) {forms : List (Value × Value)}
    (hv : (Kernel.withFuel n).evalEntries r forms w = .value r' w') :
    ∃ es', Built w' (es ++ es') r' ∧ List.Forall₂ (Evaluated n) forms es' := by
  induction forms generalizing es r w with
  | nil =>
    cases hv
    exact ⟨[], by simpa using h, .nil⟩
  | cons form forms ih =>
    obtain ⟨key, v, hkey, hv⟩ := Eval.bind_eq_value_iff.mp hv
    obtain ⟨value, u, hvalue, hv⟩ := Eval.bind_eq_value_iff.mp hv
    obtain ⟨r₁, w₁, hput, hv⟩ := Eval.bind_eq_value_iff.mp hv
    obtain ⟨_, hcv⟩ := Kernel.course_of_eval hkey
    obtain ⟨_, hcu⟩ := Kernel.course_of_eval hvalue
    obtain ⟨es', hb, hes'⟩ := ih (((h.meanwhile hcv).meanwhile hcu).insert hput) hv
    exact ⟨⟨u, key, value⟩ :: es', by simpa using hb, .cons ⟨w, v, hkey, hvalue⟩ hes'⟩

def Collected (n : Nat) (item : Value) (e : Insertion) : Prop :=
  ∃ u, (Kernel.withFuel n).collect item u = .value [e.key, e.value] e.world

theorem addEntries (h : Built w es r) {items : List Value}
    (hv : (Kernel.withFuel n).addEntries r items w = .value r' w') :
    ∃ es', Built w' (es ++ es') r' ∧ List.Forall₂ (Collected n) items es' := by
  induction items generalizing es r w with
  | nil =>
    cases hv
    exact ⟨[], by simpa using h, .nil⟩
  | cons item items ih =>
    obtain ⟨xs, u, hxs, hv⟩ := Eval.bind_eq_value_iff.mp hv
    obtain ⟨_, hcu⟩ := Kernel.course_of_collect hxs
    match xs, hxs, hv with
    | [key, value], hxs, hv =>
      obtain ⟨r₁, w₁, hput, hv⟩ := Eval.bind_eq_value_iff.mp hv
      obtain ⟨es', hb, hes'⟩ := ih ((h.meanwhile hcu).insert hput) hv
      exact ⟨⟨u, key, value⟩ :: es', by simpa using hb, .cons ⟨w, hxs⟩ hes'⟩

end Built

namespace Form

variable {w : World} {f g : Form}

theorem Readable.complete (hf : f.Readable) : Complete w (Equal w) f.toValue :=
  hf.distinct.complete.of_alike

theorem equalIn_toValue (hf : f.Readable) (hg : g.Readable) :
    equalIn w f.toValue g.toValue = same f g := by
  rw [Bool.eq_iff_iff, hf.complete.equalIn_iff_alike hg.complete, same_iff_alike hf hg]

theorem put_entryValues {es : List (Form × Form)} {key : Form} (hes : ∀ e ∈ es, e.1.Readable)
    (hk : key.Readable) (value : Form) :
    Entries.put (equalIn w) key.toValue value.toValue (entryValues es) =
      entryValues (putEntry es key value) := by
  induction es with
  | nil => rfl
  | cons e es ih =>
    obtain ⟨key', value'⟩ := e
    rw [entryValues, Entries.put, putEntry, equalIn_toValue (hes (key', value') (by simp)) hk,
      ih fun e he => hes e (by simp [he])]
    split <;> rfl

theorem built_entryValues_merged {es : List (Form × Form)} (hes : ∀ e ∈ es, e.1.Readable) :
    Built w (insertions w (entryValues es)) (entryValues (merged es)) := by
  induction es using List.reverseRecOn with
  | nil => exact .empty w
  | append_singleton es e ih =>
    have hes' : ∀ d ∈ es, d.1.Readable := fun d hd => hes d (by simp [hd])
    have he : e.1.Readable := hes e (by simp)
    have hm : ∀ d ∈ merged es, d.1.Readable := by
      intro d hd
      obtain ⟨d', hd', hkey⟩ := key_of_mem_merged hd
      rw [hkey]
      exact hes' d' hd'
    have hc : ∀ d ∈ entryValues (merged es), Complete w (Equal w) d.1 := by
      rw [entryValues_eq_map]
      exact List.forall_mem_map.mpr fun d hd => (hm d hd).complete
    obtain ⟨n, hn⟩ := exists_isSame_eq hc he.complete
    have hput := Kernel.putEntry_of_isSame e.2.toValue (hn n (Nat.le_refl n))
    rw [put_entryValues hm he, ← merged_concat hes' he] at hput
    have hb := (ih hes').insert hput
    simpa [insertions, entryValues_eq_map] using hb

theorem finite_entryValues {es : List (Form × Form)} (hes : ∀ e ∈ es, e.1.Readable) :
    ∀ e ∈ insertions w (entryValues es), e.Finite := by
  rw [insertions, entryValues_eq_map]
  exact List.forall_mem_map.mpr (List.forall_mem_map.mpr fun e he => (hes e he).complete)

end Form

/-- Under keys that are finite when they are put, and in which no map has equal keys, a map is the finite map
that its entries describe. This is how literals are read and evaluated and how `hash-map`, `assoc` and
`conj` go about it. -/
theorem built_refines :
    (∀ {w : World} {es : List Insertion} {r : List (Value × Value)}, Built w es r →
      (∀ e ∈ es, e.Finite) → Refines w es r) ∧
    (∀ (w : World) {forms : List (Form × Form)}, (∀ e ∈ forms, e.1.Readable) →
      (∀ e ∈ insertions w (Form.entryValues forms), e.Finite) ∧
      ∃ fs, Form.mapOfItems? (Form.entryItems forms) = some (.map fs) ∧
        Built w (insertions w (Form.entryValues forms)) (Form.entryValues fs)) ∧
    (∀ {n : Nat} {w w' : World} {forms : List (Value × Value)} {v : Value},
      (Kernel.withFuel n).eval (.map forms) w = .value v w' →
      ∃ m es r, v = .map r ∧ Built w' es r ∧ List.Forall₂ (Built.Evaluated m) forms es) ∧
    (∀ {w : World} {ps : List (Value × Value)}, (∀ e ∈ insertions w ps, e.Finite) →
      ∃ r n, (∀ m, n ≤ m →
          (Kernel.withFuel m).hashMap (entryArgs ps) w = .value (.map r) w) ∧
        Built w (insertions w ps) r) ∧
    (∀ {w : World} {es : List Insertion} {r ps : List (Value × Value)} {coll : Value}, Built w es r →
      (∀ e ∈ es, e.Finite) → (∀ e ∈ insertions w ps, e.Finite) →
      coll = .map r ∨ coll = .nil ∧ r = [] →
      ∃ r' n, (∀ m, n ≤ m →
          (Kernel.withFuel m).assoc coll (entryArgs ps) w = .value (.map r') w) ∧
        Built w (es ++ insertions w ps) r') ∧
    ∀ {n : Nat} {w w' : World} {es : List Insertion} {r : List (Value × Value)} {items : List Value}
      {v : Value}, Built w es r → (Kernel.withFuel n).conj (.map r) items w = .value v w' →
      ∃ es' r', v = .map r' ∧ Built w' (es ++ es') r' ∧ List.Forall₂ (Built.Collected n) items es' := by
  refine ⟨fun h hes => h.refines hes, fun w forms hf => ?_, fun {n w w' forms v} hv => ?_,
    fun {w ps} hps => ?_, fun {w es r ps coll} h hes hps hcoll => ?_,
    fun {n w w' es r items v} h hv => ?_⟩
  · exact ⟨Form.finite_entryValues hf, _, Form.mapOfItems?_entryItems hf,
      Form.built_entryValues_merged hf⟩
  · cases n with
    | zero => cases hv
    | succ n =>
      obtain ⟨r, u, hr, hv⟩ := Eval.bind_eq_value_iff.mp hv
      cases hv
      obtain ⟨es, hb, hes⟩ := (Built.empty w).evalEntries hr
      exact ⟨n, es, r, rfl, hb, hes⟩
  · obtain ⟨r, n, hn, hb⟩ := (Built.empty w).putPairs nofun hps
    refine ⟨r, n, fun m hm => ?_, hb⟩
    rw [Kernel.hashMap, if_pos (length_entryArgs _), Eval.bind_of_value (hn m hm), Eval.pure_apply]
  · obtain ⟨r', n, hn, hb⟩ := h.putPairs hes hps
    refine ⟨r', n, fun m hm => ?_, hb⟩
    rw [Kernel.assoc_eq_putPairs hcoll (length_entryArgs _), Eval.bind_of_value (hn m hm),
      Eval.pure_apply]
  · obtain ⟨r', u, hr', hv⟩ := Eval.bind_eq_value_iff.mp hv
    cases hv
    obtain ⟨es', hb, hes'⟩ := h.addEntries hr'
    exact ⟨es', r', rfl, hb, hes'⟩

def oneElementEntries : List (Value × Value) :=
  [(.list [.int 1], .keyword ":a"), (.map [(.keyword ":k", .lazy 0)], .keyword ":b"),
    (.lazy 0, .keyword ":c"), (.map [(.keyword ":k", .list [.int 1])], .keyword ":d")]

theorem built_refines_across_kinds :
    (∀ e ∈ insertions oneElementWorld oneElementEntries, e.Finite) ∧
      ∃ r n, (∀ m, n ≤ m → (Kernel.withFuel m).hashMap (entryArgs oneElementEntries) oneElementWorld =
          .value (.map r) oneElementWorld) ∧
        r.map Prod.fst = [.list [.int 1], .map [(.keyword ":k", .lazy 0)]] ∧
        ∃ n, ∀ m, n ≤ m → (Kernel.withFuel m).getEntry r (.vector [.int 1]) oneElementWorld =
          .value (some (.keyword ":c")) oneElementWorld := by
  let w := oneElementWorld
  have hone : ∀ x ∈ [Value.int 1], Complete w (Equal w) x := List.forall_mem_singleton.mpr (.atom _)
  have hlazy : Complete w (Equal w) (.lazy 0) := .lazy rfl (.cons (.atom _) (.lazy rfl (.list nofun)))
  have hmap {v : Value} (hv : Complete w (Equal w) v) : Complete w (Equal w) (.map [(.keyword ":k", v)]) :=
    .map (List.pairwise_singleton _ _) (List.forall_mem_singleton.mpr (.atom _))
      (List.forall_mem_singleton.mpr hv)
  have hf : ∀ e ∈ insertions w oneElementEntries, e.Finite := by
    refine List.forall_mem_map.mpr ?_
    simp only [oneElementEntries, List.forall_mem_cons]
    exact ⟨.list hone, hmap hlazy, hlazy, hmap (.list hone), nofun⟩
  obtain ⟨r, n, hn, hb⟩ := built_refines.2.2.2.1 hf
  have hr := built_refines.1 hb hf
  have he {a b : Value} {answer : Bool} (h : (Kernel.withFuel 9).isEqual a b w = .value answer w) :
      equalIn w a b = answer := (Answers.of_value h).equalIn_eq
  refine ⟨hf, r, n, hn, ?_, ?_⟩
  · have h₁ : equalIn w (.list [.int 1]) (.map [(.keyword ":k", .lazy 0)]) = false := he rfl
    have h₂ : equalIn w (.map [(.keyword ":k", .lazy 0)]) (.lazy 0) = false := he rfl
    have h₃ : equalIn w (.list [.int 1]) (.lazy 0) = true := he rfl
    have h₄ : equalIn w (.map [(.keyword ":k", .lazy 0)]) (.map [(.keyword ":k", .list [.int 1])]) = true :=
      he rfl
    rw [hr.keys]
    simp [insertions, oneElementEntries, List.eraseDupsBy, List.eraseDupsBy.loop, h₁, h₂, h₃, h₄]
  · have h₁ : equalIn w (.map [(.keyword ":k", .list [.int 1])]) (.vector [.int 1]) = false := he rfl
    have h₂ : equalIn w (.lazy 0) (.vector [.int 1]) = true := he rfl
    obtain ⟨n, hn⟩ := hr.get (.vector [.int 1]) (.vector hone)
    simp only [insertions, oneElementEntries, List.map_cons, List.map_nil, List.reverse_cons,
      List.reverse_nil, List.nil_append, List.cons_append, List.find?_cons, h₁, h₂] at hn
    exact ⟨n, hn⟩

def unboundWorld : World :=
  { World.empty with cells := #[⟨0, .unrealized (Run.delayedBody (.symbol "x"))⟩] }

def boundWorld : World := unboundWorld.define "x" (.vector [.int 1])

def settledWorld : World := { boundWorld with cells := #[⟨0, .realized (.vector [.int 1])⟩] }

def doubledEntries : List (Value × Value) := [(.lazy 0, .int 1), (.vector [.int 1], .int 1)]

def singleEntries : List (Value × Value) := [(.vector [.int 1], .int 1), (.keyword ":b", .int 2)]

def nestedEntries : List (Value × Value) :=
  [(.map singleEntries, .keyword ":x"), (.map doubledEntries, .keyword ":y")]

def ringWorld : World :=
  { World.empty with cells := #[⟨0, .realized (.cons (.int 1) (.lazy 0))⟩] }

theorem uncons_ringWorld (k : Kernel) (n : Nat) :
    k.uncons n (.lazy 0) ringWorld = .outOfFuel ∨
      k.uncons n (.lazy 0) ringWorld = .value (some (.int 1, .lazy 0)) ringWorld := by
  cases n with
  | zero => exact .inl rfl
  | succ n => cases n <;> exact .inr rfl

theorem equalElements_ringWorld (k : Kernel) (n m : Nat) :
    k.equalElements (k.equal n) m (.lazy 0) (.lazy 0) ringWorld = .outOfFuel := by
  induction m with
  | zero => rfl
  | succ m ih =>
    rw [Kernel.equalElements, Eval.bind_apply]
    rcases uncons_ringWorld k k.fuel with h | h
    · rw [h]
    · rw [h]
      dsimp only
      rw [Eval.bind_of_value h]
      dsimp only
      cases n with
      | zero => rfl
      | succ n => exact ih

theorem getEntry_ringWorld (n : Nat) (value : Value) :
    (Kernel.withFuel n).getEntry [(.lazy 0, value)] (.lazy 0) ringWorld = .outOfFuel := by
  have he : (Kernel.withFuel n).isEqual (.lazy 0) (.lazy 0) ringWorld = .outOfFuel := by
    rw [Kernel.isEqual, Kernel.fuel_withFuel]
    cases n with
    | zero => rfl
    | succ n => exact equalElements_ringWorld _ _ _
  rw [Kernel.getEntry, Kernel.findEntry, Eval.bind_apply, Kernel.isSame, Eval.orFalse, he]

/-- One of these keys was made when its own keys were unequal, but only because one of them failed. Now it
equals the other key, from which it is told apart. And a key that is its own rest is never found. -/
theorem built_not_refines :
    (∃ n, (Kernel.withFuel n).hashMap (entryArgs doubledEntries) unboundWorld =
      .value (.map doubledEntries) unboundWorld) ∧
    (∃ n, (Kernel.withFuel n).first (.lazy 0) boundWorld = .value (.int 1) settledWorld) ∧
    (∀ i, i < settledWorld.cells.size → settledWorld.isRealized i = true) ∧
    (∃ n, (Kernel.withFuel n).hashMap (entryArgs nestedEntries) settledWorld =
      .value (.map nestedEntries) settledWorld) ∧
    Built settledWorld (insertions settledWorld nestedEntries) nestedEntries ∧
    Equal settledWorld (.map doubledEntries) (.map singleEntries) ∧
    ¬ Refines settledWorld (insertions settledWorld nestedEntries) nestedEntries ∧
    (∀ i, i < ringWorld.cells.size → ringWorld.isRealized i = true) ∧
    Built ringWorld (insertions ringWorld [(.lazy 0, .nil)]) [(.lazy 0, .nil)] ∧
    ∀ n, (Kernel.withFuel n).getEntry [(.lazy 0, .nil)] (.lazy 0) ringWorld = .outOfFuel := by
  have hb : Built settledWorld (insertions settledWorld nestedEntries) nestedEntries :=
    .insert (n := 9) (.insert (n := 9) (.empty _) rfl) rfl
  have he : Equal settledWorld (.map doubledEntries) (.map singleEntries) := .of_value (n := 9) rfl
  refine ⟨⟨6, rfl⟩, ⟨6, rfl⟩, fun i hi => ?_, ⟨9, rfl⟩, hb, he, fun hr => ?_, fun i hi => ?_,
    .insert (n := 0) (.empty _) rfl, fun n => getEntry_ringWorld n _⟩
  · obtain rfl : i = 0 := by simpa [settledWorld] using hi
    rfl
  · cases (List.pairwise_pair.mp hr.distinct).2.unique he
  · obtain rfl : i = 0 := by simpa [ringWorld] using hi
    rfl

end LazyLisp
