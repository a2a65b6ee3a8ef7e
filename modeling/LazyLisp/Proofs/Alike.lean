import LazyLisp.Proofs.Traversal
import Mathlib.Data.List.Perm.Basic

namespace LazyLisp

inductive Elements (w : World) : Value → List Value → Prop
  | nil {v : Value} : AtHand w v none → Elements w v []
  | cons {v x u : Value} {xs : List Value} : AtHand w v (some (x, u)) → Elements w u xs →
      Elements w v (x :: xs)

namespace Elements

variable {w : World} {v : Value} {xs ys : List Value}

theorem unique (h : Elements w v xs) (h' : Elements w v ys) : xs = ys := by
  induction h generalizing ys with
  | nil hn =>
    cases h' with
    | nil => rfl
    | cons hc _ => cases hn.unique hc
  | cons hc _ ih =>
    cases h' with
    | nil hn => cases hc.unique hn
    | cons hc' h' =>
      cases hc.unique hc'
      rw [ih h']

theorem mono {w' : World} {evs : List CellEvent} (h : Elements w v xs) (hc : Course w evs w') :
    Elements w' v xs := by
  induction h with
  | nil hn => exact .nil (hn.mono hc)
  | cons hx _ ih => exact .cons (hx.mono hc) ih

theorem lazy {i : Nat} {s : Value} (hs : w.cellValue? i = some s) (h : Elements w s xs) :
    Elements w (.lazy i) xs := by
  cases h with
  | nil hn => exact .nil (.lazy hs hn)
  | cons hc h => exact .cons (.lazy hs hc) h

theorem atom (a : Atom) : Elements w (.atom a) [] := .nil (.plain nofun)

theorem callable (i : Nat) (f : Callable Value) : Elements w (.callable i f) [] :=
  .nil (.plain nofun)

theorem list (xs : List Value) : Elements w (.list xs) xs := by
  induction xs with
  | nil => exact .nil (.plain nofun)
  | cons x xs ih => exact .cons (.plain nofun) ih

theorem vector (xs : List Value) : Elements w (.vector xs) xs := by
  induction xs with
  | nil => exact .nil (.plain nofun)
  | cons x xs ih => exact .cons (.plain nofun) ih

theorem map (es : List (Value × Value)) : Elements w (.map es) (es.map Value.entry) := by
  induction es with
  | nil => exact .nil (.plain nofun)
  | cons e es ih => exact .cons (.plain nofun) ih

theorem consCell {x rest : Value} (h : Elements w rest xs) : Elements w (.cons x rest) (x :: xs) :=
  .cons (.plain nofun) h

end Elements

section Pairs

variable {α β γ : Type}

theorem compose_pairs {ps : List (α × β)} {qs : List (β × γ)} (h : ps.map Prod.snd = qs.map Prod.fst) :
    ∃ rs : List (α × γ), rs.map Prod.fst = ps.map Prod.fst ∧ rs.map Prod.snd = qs.map Prod.snd ∧
      ∀ r ∈ rs, ∃ b, (r.1, b) ∈ ps ∧ (b, r.2) ∈ qs := by
  induction ps generalizing qs with
  | nil =>
    obtain rfl : qs = [] := by simpa using h.symm
    exact ⟨[], rfl, rfl, by simp⟩
  | cons p ps ih =>
    obtain ⟨a, b⟩ := p
    cases qs with
    | nil => cases h
    | cons q qs =>
      obtain ⟨b', c⟩ := q
      obtain ⟨rfl, ht⟩ : b = b' ∧ ps.map Prod.snd = qs.map Prod.fst := by simpa using h
      obtain ⟨rs, hf, hs, hr⟩ := ih ht
      refine ⟨(a, c) :: rs, by simp [hf], by simp [hs], fun r hm => ?_⟩
      rcases List.mem_cons.mp hm with rfl | hm
      · exact ⟨b, by simp, by simp⟩
      · obtain ⟨b', hp, hq⟩ := hr r hm
        exact ⟨b', by simp [hp], by simp [hq]⟩

theorem compose_pairs_perm {ps : List (α × β)} {qs : List (β × γ)}
    (h : (ps.map Prod.snd).Perm (qs.map Prod.fst)) :
    ∃ rs : List (α × γ), rs.map Prod.fst = ps.map Prod.fst ∧ (rs.map Prod.snd).Perm (qs.map Prod.snd) ∧
      ∀ r ∈ rs, ∃ b, (r.1, b) ∈ ps ∧ (b, r.2) ∈ qs := by
  -- The pairs on the right are put into the order in which those on the left meet them.
  obtain ⟨qs', he, hq⟩ : ∃ qs' : List (β × γ), ps.map Prod.snd = qs'.map Prod.fst ∧ qs'.Perm qs := by
    have hc := congrFun (congrFun (List.eq_map_comp_perm (Prod.fst : β × γ → β)) (ps.map Prod.snd)) qs
    exact hc.mpr h
  obtain ⟨rs, hf, hs, hr⟩ := compose_pairs he
  refine ⟨rs, hf, hs ▸ hq.map _, fun r hm => ?_⟩
  obtain ⟨b, hp, hb⟩ := hr r hm
  exact ⟨b, hp, hq.mem_iff.mp hb⟩

theorem exists_pairs_iff_forall₂ {R : α → β → Prop} {xs : List α} {ys : List β} :
    (∃ ps : List (α × β), ps.map Prod.fst = xs ∧ ps.map Prod.snd = ys ∧ ∀ p ∈ ps, R p.1 p.2) ↔
      List.Forall₂ R xs ys := by
  constructor
  · rintro ⟨ps, rfl, rfl, h⟩
    rw [List.forall₂_map_left_iff, List.forall₂_map_right_iff, List.forall₂_same]
    exact h
  · intro h
    induction h with
    | nil => exact ⟨[], rfl, rfl, by simp⟩
    | @cons x y xs ys hr _ ih =>
      obtain ⟨ps, rfl, rfl, h⟩ := ih
      refine ⟨(x, y) :: ps, rfl, rfl, fun p hp => ?_⟩
      rcases List.mem_cons.mp hp with rfl | hp
      · exact hr
      · exact h p hp

theorem forall₂_congr_of_mem {R S : α → β → Prop} {xs : List α} {ys : List β}
    (h : ∀ x ∈ xs, ∀ y ∈ ys, R x y ↔ S x y) : List.Forall₂ R xs ys ↔ List.Forall₂ S xs ys := by
  rw [List.forall₂_iff_zip, List.forall₂_iff_zip]
  constructor
  · rintro ⟨hlen, hr⟩
    exact ⟨hlen, fun hm => (h _ (List.of_mem_zip hm).1 _ (List.of_mem_zip hm).2).mp (hr hm)⟩
  · rintro ⟨hlen, hs⟩
    exact ⟨hlen, fun hm => (h _ (List.of_mem_zip hm).1 _ (List.of_mem_zip hm).2).mpr (hs hm)⟩

theorem exists_pairing {R : α → β → Prop} {es : List α} {fs : List β} (hlen : es.length = fs.length)
    (hd : es.Pairwise fun d e => ∀ f, R d f → ¬ R e f) (h : ∀ e ∈ es, ∃ f ∈ fs, R e f) :
    ∃ ps : List (α × β), ps.map Prod.fst = es ∧ (ps.map Prod.snd).Perm fs ∧ ∀ p ∈ ps, R p.1 p.2 := by
  induction es generalizing fs with
  | nil =>
    obtain rfl : fs = [] := List.eq_nil_of_length_eq_zero hlen.symm
    exact ⟨[], rfl, .nil, by simp⟩
  | cons e es ih =>
    obtain ⟨hde, hd⟩ := List.pairwise_cons.mp hd
    obtain ⟨f, hf, hr⟩ := h e (by simp)
    obtain ⟨before, after, rfl⟩ := List.append_of_mem hf
    have hlen' : es.length = (before ++ after).length := by
      simp only [List.length_cons, List.length_append] at hlen ⊢
      omega
    obtain ⟨ps, rfl, hp, hps⟩ := ih hlen' hd fun d hm => by
      obtain ⟨g, hg, hrg⟩ := h d (List.mem_cons_of_mem e hm)
      refine ⟨g, ?_, hrg⟩
      -- The partner of `e` is taken, and nobody else could have had it.
      have hne : g ≠ f := by
        rintro rfl
        exact hde d hm g hr hrg
      simp only [List.mem_append, List.mem_cons] at hg ⊢
      tauto
    refine ⟨(e, f) :: ps, rfl, ?_, ?_⟩
    · exact (hp.cons f).trans List.perm_middle.symm
    · intro p hm
      rcases List.mem_cons.mp hm with rfl | hm
      · exact hr
      · exact hps p hm

theorem find?_eq_some_iff_of_pairwise {p : α → Bool} {xs : List α} {x : α}
    (h : xs.Pairwise fun x y => p x = true → p y = false) :
    xs.find? p = some x ↔ x ∈ xs ∧ p x = true := by
  constructor
  · intro hx
    exact ⟨List.mem_of_find?_eq_some hx, List.find?_some hx⟩
  · rintro ⟨hm, hx⟩
    induction xs with
    | nil => cases hm
    | cons y xs ih =>
      obtain ⟨hy, hxs⟩ := List.pairwise_cons.mp h
      rcases List.mem_cons.mp hm with rfl | hm
      · exact List.find?_cons_of_pos hx
      · have hn : p y = false := by
          by_contra hp
          simp [hy x hm (by simpa using hp)] at hx
        rw [List.find?_cons_of_neg (by simp [hn])]
        exact ih hxs hm

end Pairs

inductive Value.Kind where
  | atom
  | sequence
  | map
  | callable

def Value.kind : Value → Kind
  | .atom _ => .atom
  | .list _ | .vector _ | .cons _ _ | .lazy _ => .sequence
  | .map _ => .map
  | .callable _ _ => .callable

theorem Value.kind_eq_sequence {v : Value} (h : v.isSequential = true) : v.kind = .sequence := by
  cases v <;> first | rfl | cases h

inductive Alike (w : World) : Value → Value → Prop
  | atom (a : Atom) : Alike w (.atom a) (.atom a)
  | callable (i : Nat) (f g : Callable Value) : Alike w (.callable i f) (.callable i g)
  | sequence {a b : Value} {ps : List (Value × Value)} : a.isSequential = true → b.isSequential = true →
      Elements w a (ps.map Prod.fst) → Elements w b (ps.map Prod.snd) → (∀ p ∈ ps, Alike w p.1 p.2) →
      Alike w a b
  | map {es fs : List (Value × Value)} {ps : List ((Value × Value) × (Value × Value))} :
      (ps.map Prod.fst).Perm es → (ps.map Prod.snd).Perm fs →
      (∀ p ∈ ps, Alike w p.1.1 p.2.1) → (∀ p ∈ ps, Alike w p.1.2 p.2.2) → Alike w (.map es) (.map fs)

namespace Alike

variable {w : World} {a b c : Value} {xs ys : List Value} {es fs : List (Value × Value)}

theorem symm (h : Alike w a b) : Alike w b a := by
  induction h with
  | atom a => exact .atom a
  | callable i f g => exact .callable i g f
  | @sequence a b ps ha hb hxs hys _ ih =>
    refine @sequence w b a (ps.map Prod.swap) hb ha ?_ ?_ ?_
    · simpa [Function.comp_def] using hys
    · simpa [Function.comp_def] using hxs
    · exact List.forall_mem_map.mpr ih
  | @map es fs ps he hf _ _ ihk ihv =>
    refine @map w fs es (ps.map Prod.swap) ?_ ?_ ?_ ?_
    · simpa [Function.comp_def] using hf
    · simpa [Function.comp_def] using he
    · exact List.forall_mem_map.mpr ihk
    · exact List.forall_mem_map.mpr ihv

theorem trans (h : Alike w a b) (h' : Alike w b c) : Alike w a c := by
  induction h generalizing c with
  | atom a => exact h'
  | callable i f g =>
    cases h' with
    | callable => exact .callable i f _
    | sequence hb => cases hb
  | @sequence a b ps ha hb hxs hys _ ih =>
    cases h' with
    | atom => cases hb
    | callable => cases hb
    | map => cases hb
    | sequence _ hc hys' hzs h' =>
      obtain ⟨rs, hf, hs, hr⟩ := compose_pairs (hys.unique hys')
      refine .sequence ha hc (hf ▸ hxs) (hs ▸ hzs) fun r hm => ?_
      obtain ⟨y, hp, hq⟩ := hr r hm
      exact ih (r.1, y) hp (h' (y, r.2) hq)
  | @map es fs ps he hf _ _ ihk ihv =>
    cases h' with
    | sequence hb => cases hb
    | map hf' hg hk hv =>
      obtain ⟨rs, hrf, hrs, hr⟩ := compose_pairs_perm (hf.trans hf'.symm)
      refine .map (hrf ▸ he) (hrs.trans hg) (fun r hm => ?_) fun r hm => ?_
      · obtain ⟨f, hp, hq⟩ := hr r hm
        exact ihk (r.1, f) hp (hk (f, r.2) hq)
      · obtain ⟨f, hp, hq⟩ := hr r hm
        exact ihv (r.1, f) hp (hv (f, r.2) hq)

theorem mono {w' : World} {evs : List CellEvent} (h : Alike w a b) (hc : Course w evs w') :
    Alike w' a b := by
  induction h with
  | atom a => exact .atom a
  | callable i f g => exact .callable i f g
  | sequence ha hb hxs hys _ ih => exact .sequence ha hb (hxs.mono hc) (hys.mono hc) ih
  | map he hf _ _ ihk ihv => exact .map he hf ihk ihv

theorem kind_eq (h : Alike w a b) : a.kind = b.kind := by
  cases h with
  | sequence ha hb => rw [Value.kind_eq_sequence ha, Value.kind_eq_sequence hb]
  | _ => rfl

theorem atom_iff {x y : Atom} : Alike w (.atom x) (.atom y) ↔ x = y := by
  constructor
  · intro h
    cases h with
    | atom => rfl
    | sequence ha => cases ha
  · rintro rfl
    exact .atom x

theorem callable_iff {i j : Nat} {f g : Callable Value} :
    Alike w (.callable i f) (.callable j g) ↔ i = j := by
  constructor
  · intro h
    cases h with
    | callable => rfl
    | sequence ha => cases ha
  · rintro rfl
    exact .callable i f g

theorem sequence_iff (ha : a.isSequential = true) (hb : b.isSequential = true) (hxs : Elements w a xs)
    (hys : Elements w b ys) : Alike w a b ↔ List.Forall₂ (Alike w) xs ys := by
  rw [← exists_pairs_iff_forall₂]
  constructor
  · intro h
    cases h with
    | atom => cases ha
    | callable => cases ha
    | map => cases ha
    | @sequence _ _ ps _ _ hxs' hys' h => exact ⟨ps, hxs'.unique hxs, hys'.unique hys, h⟩
  · rintro ⟨ps, rfl, rfl, h⟩
    exact .sequence ha hb hxs hys h

theorem map_iff : Alike w (.map es) (.map fs) ↔
    ∃ gs : List (Value × Value), gs.Perm fs ∧
      List.Forall₂ (fun e g => Alike w e.1 g.1 ∧ Alike w e.2 g.2) es gs := by
  constructor
  · intro h
    cases h with
    | sequence ha => cases ha
    | @map _ _ ps he hf hk hv =>
      have hps : List.Forall₂ (fun e g => Alike w e.1 g.1 ∧ Alike w e.2 g.2) (ps.map Prod.fst)
          (ps.map Prod.snd) :=
        exists_pairs_iff_forall₂.mp ⟨ps, rfl, rfl, fun p hp => ⟨hk p hp, hv p hp⟩⟩
      obtain ⟨gs, hg, hp⟩ := List.perm_comp_forall₂ he.symm hps
      exact ⟨gs, hp.trans hf, hg⟩
  · rintro ⟨gs, hp, hg⟩
    obtain ⟨ps, rfl, rfl, h⟩ := exists_pairs_iff_forall₂.mpr hg
    exact .map (.refl _) hp (fun p hm => (h p hm).1) fun p hm => (h p hm).2

def Matched (w : World) (fs : List (Value × Value)) (e : Value × Value) : Prop :=
  ∃ f ∈ fs, Alike w e.1 f.1 ∧ Alike w e.2 f.2

theorem map_iff_of_distinct (hd : es.Pairwise fun d e => ¬ Alike w d.1 e.1) :
    Alike w (.map es) (.map fs) ↔ es.length = fs.length ∧ ∀ e ∈ es, Matched w fs e := by
  constructor
  · intro h
    cases h with
    | sequence ha => cases ha
    | @map _ _ ps he hf hk hv =>
      constructor
      · rw [← he.length_eq, ← hf.length_eq]
        simp
      · intro e hm
        obtain ⟨p, hp, rfl⟩ := List.mem_map.mp (he.mem_iff.mpr hm)
        exact ⟨p.2, hf.mem_iff.mp (List.mem_map_of_mem hp), hk p hp, hv p hp⟩
  · rintro ⟨hlen, h⟩
    have hd' : es.Pairwise fun d e => ∀ f : Value × Value, Alike w d.1 f.1 ∧ Alike w d.2 f.2 →
        ¬ (Alike w e.1 f.1 ∧ Alike w e.2 f.2) :=
      hd.imp fun hn f hdf hef => hn (hdf.1.trans hef.1.symm)
    obtain ⟨ps, rfl, hp, hr⟩ := exists_pairing hlen hd' h
    exact .map (.refl _) hp (fun p hm => (hr p hm).1) fun p hm => (hr p hm).2

end Alike

/-- The finite values: every lazy sequence in them has its elements, and no two keys of a map in them are
related. -/
inductive Complete (w : World) (R : Value → Value → Prop) : Value → Prop
  | atom (a : Atom) : Complete w R (.atom a)
  | callable (i : Nat) (f : Callable Value) : Complete w R (.callable i f)
  | list {xs : List Value} : (∀ x ∈ xs, Complete w R x) → Complete w R (.list xs)
  | vector {xs : List Value} : (∀ x ∈ xs, Complete w R x) → Complete w R (.vector xs)
  | cons {x rest : Value} : Complete w R x → Complete w R rest → Complete w R (.cons x rest)
  | lazy {i : Nat} {s : Value} : w.cellValue? i = some s → Complete w R s → Complete w R (.lazy i)
  | map {es : List (Value × Value)} : es.Pairwise (fun d e => ¬ R d.1 e.1) →
      (∀ e ∈ es, Complete w R e.1) → (∀ e ∈ es, Complete w R e.2) → Complete w R (.map es)

namespace Complete

variable {w : World} {R : Value → Value → Prop} {v : Value}

theorem content_induction {motive : Value → Prop}
    (atom : ∀ a, motive (.atom a)) (callable : ∀ i f, motive (.callable i f))
    (sequence : ∀ v xs, v.isSequential = true → Elements w v xs → (∀ x ∈ xs, motive x) → motive v)
    (map : ∀ es : List (Value × Value), es.Pairwise (fun d e => ¬ R d.1 e.1) →
      (∀ e ∈ es, motive e.1) → (∀ e ∈ es, motive e.2) → motive (.map es))
    (h : Complete w R v) : motive v := by
  -- The rest of a cons cell can be any value, so its elements are carried along.
  suffices hv : motive v ∧ ∃ xs, Elements w v xs ∧ ∀ x ∈ xs, motive x from hv.1
  have whole {v : Value} {xs : List Value} (hs : v.isSequential = true) (he : Elements w v xs)
      (hx : ∀ x ∈ xs, motive x) : motive v ∧ ∃ xs, Elements w v xs ∧ ∀ x ∈ xs, motive x :=
    ⟨sequence v xs hs he hx, xs, he, hx⟩
  induction h with
  | atom a => exact ⟨atom a, [], .atom a, by simp⟩
  | callable i f => exact ⟨callable i f, [], .callable i f, by simp⟩
  | list _ ih => exact whole rfl (.list _) fun x hx => (ih x hx).1
  | vector _ ih => exact whole rfl (.vector _) fun x hx => (ih x hx).1
  | cons _ _ ihx ihr =>
    obtain ⟨xs, he, hx⟩ := ihr.2
    exact whole rfl he.consCell (List.forall_mem_cons.mpr ⟨ihx.1, hx⟩)
  | lazy hc _ ih =>
    obtain ⟨xs, he, hx⟩ := ih.2
    exact whole rfl (he.lazy hc) hx
  | @map es hd _ _ ihk ihv =>
    refine ⟨map es hd (fun e he => (ihk e he).1) fun e he => (ihv e he).1, _, .map es, ?_⟩
    refine List.forall_mem_map.mpr fun e he => sequence (.entry e) [e.1, e.2] rfl (.vector _) ?_
    exact List.forall_mem_cons.mpr ⟨(ihk e he).1, List.forall_mem_singleton.mpr (ihv e he).1⟩

theorem alike_refl (h : Complete w R v) : Alike w v v := by
  refine content_induction (motive := fun v => Alike w v v) (fun a => .atom a)
    (fun i f => .callable i f f) ?_ ?_ h
  · intro v xs hs he ih
    rw [Alike.sequence_iff hs hs he he, List.forall₂_same]
    exact ih
  · intro es _ ihk ihv
    rw [Alike.map_iff]
    exact ⟨es, .refl es, List.forall₂_same.mpr fun e he => ⟨ihk e he, ihv e he⟩⟩

theorem elements (h : Complete w R v) : ∃ xs, Elements w v xs ∧ ∀ x ∈ xs, Complete w R x := by
  induction h with
  | atom a => exact ⟨[], .atom a, by simp⟩
  | callable i f => exact ⟨[], .callable i f, by simp⟩
  | list hx _ => exact ⟨_, .list _, hx⟩
  | vector hx _ => exact ⟨_, .vector _, hx⟩
  | @cons x rest hx _ _ ih =>
    obtain ⟨xs, he, hxs⟩ := ih
    exact ⟨x :: xs, he.consCell, List.forall_mem_cons.mpr ⟨hx, hxs⟩⟩
  | lazy hc _ ih =>
    obtain ⟨xs, he, hxs⟩ := ih
    exact ⟨xs, he.lazy hc, hxs⟩
  | @map es _ hk hv _ _ =>
    refine ⟨_, .map es, List.forall_mem_map.mpr fun e he => .vector ?_⟩
    exact List.forall_mem_cons.mpr ⟨hk e he, List.forall_mem_singleton.mpr (hv e he)⟩

theorem alike_of_later {w' : World} {evs : List CellEvent} {a b : Value} (hc : Course w evs w')
    (h : Alike w' a b) (ha : Complete w R a) (hb : Complete w R b) : Alike w a b := by
  induction h with
  | atom a => exact .atom a
  | callable i f g => exact .callable i f g
  | @sequence a b ps hsa hsb hxs hys _ ih =>
    obtain ⟨xs, hex, hcx⟩ := ha.elements
    obtain ⟨ys, hey, hcy⟩ := hb.elements
    cases (hex.mono hc).unique hxs
    cases (hey.mono hc).unique hys
    refine .sequence hsa hsb hex hey fun p hp => ?_
    exact ih p hp (hcx _ (List.mem_map_of_mem hp)) (hcy _ (List.mem_map_of_mem hp))
  | @map es fs ps he hf _ _ ihk ihv =>
    cases ha with
    | map _ hek hev =>
    cases hb with
    | map _ hfk hfv =>
    have hl {p} (hp : p ∈ ps) : p.1 ∈ es := he.mem_iff.mp (List.mem_map_of_mem hp)
    have hr {p} (hp : p ∈ ps) : p.2 ∈ fs := hf.mem_iff.mp (List.mem_map_of_mem hp)
    refine .map he hf (fun p hp => ?_) fun p hp => ?_
    · exact ihk p hp (hek _ (hl hp)) (hfk _ (hr hp))
    · exact ihv p hp (hev _ (hl hp)) (hfv _ (hr hp))

theorem transfer {w' : World} {R' : Value → Value → Prop}
    (hw : ∀ {i s}, w.cellValue? i = some s → w'.cellValue? i = some s)
    (hR : ∀ {a b}, Complete w R a → Complete w R b → Complete w' R' a → Complete w' R' b →
      R' a b → R a b) (h : Complete w R v) : Complete w' R' v := by
  induction h with
  | atom a => exact .atom a
  | callable i f => exact .callable i f
  | list _ ih => exact .list ih
  | vector _ ih => exact .vector ih
  | cons _ _ ihx ihr => exact .cons ihx ihr
  | lazy hi _ ih => exact .lazy (hw hi) ih
  | map hd hk _ ihk ihv =>
    refine .map (hd.imp_of_mem fun {d e} hdm hem hn h' => hn ?_) ihk ihv
    exact hR (hk d hdm) (hk e hem) (ihk d hdm) (ihk e hem) h'

theorem mono {w' : World} {evs : List CellEvent} (h : Complete w (Alike w) v) (hc : Course w evs w') :
    Complete w' (Alike w') v :=
  h.transfer hc.cellValue fun ha hb _ _ hab => alike_of_later hc hab ha hb

end Complete

end LazyLisp
