import LazyLisp.Proofs.Alike
import LazyLisp.Proofs.Source.RoundTrip
import Mathlib.Data.List.Induction

namespace LazyLisp.Form

variable {w : World} {f g h : Form}

theorem entryValues_eq_map (es : List (Form × Form)) :
    entryValues es = es.map fun e => (e.1.toValue, e.2.toValue) := by
  induction es with
  | nil => rfl
  | cons e es ih => simp [entryValues, ih]

theorem sameItems_iff (xs ys : List Form) :
    sameItems xs ys = true ↔ List.Forall₂ (fun x y => same x y = true) xs ys := by
  induction xs generalizing ys with
  | nil => cases ys <;> simp [sameItems]
  | cons x xs ih => cases ys <;> simp [sameItems, ih]

theorem sameEntries_iff (es fs : List (Form × Form)) :
    sameEntries es fs = true ↔
      ∀ e ∈ es, ∃ f, fs.find? (fun f => same e.1 f.1) = some f ∧ same e.2 f.2 = true := by
  induction es with
  | nil => simp [sameEntries]
  | cons e es ih =>
    rw [sameEntries, Bool.and_eq_true, ih, List.forall_mem_cons]
    refine and_congr_left fun _ => ?_
    cases fs.find? fun f => same e.1 f.1 <;> simp

inductive Distinct (w : World) : Form → Prop
  | atom (a : Atom) : Distinct w (.atom a)
  | list {xs : List Form} : (∀ x ∈ xs, Distinct w x) → Distinct w (.list xs)
  | vector {xs : List Form} : (∀ x ∈ xs, Distinct w x) → Distinct w (.vector xs)
  | map {es : List (Form × Form)} : es.Pairwise (fun d e => ¬ Alike w d.1.toValue e.1.toValue) →
      (∀ e ∈ es, Distinct w e.1) → (∀ e ∈ es, Distinct w e.2) → Distinct w (.map es)

def Faithful (w : World) (f g : Form) : Prop := same f g = true ↔ Alike w f.toValue g.toValue

theorem faithful_of_kind_ne (hs : same f g = false) (hk : f.toValue.kind ≠ g.toValue.kind) :
    Faithful w f g := by
  constructor
  · intro h
    simp [hs] at h
  · intro h
    exact absurd h.kind_eq hk

theorem sameItems_iff_alike {a b : Value} {xs ys : List Form} (ha : a.isSequential = true)
    (hb : b.isSequential = true) (hxs : Elements w a (itemValues xs))
    (hys : Elements w b (itemValues ys)) (h : ∀ x ∈ xs, ∀ y ∈ ys, Faithful w x y) : sameItems xs ys = true ↔ Alike w a b := by
  rw [Alike.sequence_iff ha hb hxs hys, itemValues_eq_map, itemValues_eq_map,
    List.forall₂_map_left_iff, List.forall₂_map_right_iff, sameItems_iff]
  exact forall₂_congr_of_mem h

theorem faithful_map {es fs : List (Form × Form)}
    (hd : es.Pairwise fun d e => ¬ Alike w d.1.toValue e.1.toValue)
    (hd' : fs.Pairwise fun d e => ¬ Alike w d.1.toValue e.1.toValue)
    (hk : ∀ e ∈ es, ∀ f ∈ fs, Faithful w e.1 f.1) (hv : ∀ e ∈ es, ∀ f ∈ fs, Faithful w e.2 f.2) :
    Faithful w (.map es) (.map fs) := by
  have hfind : ∀ e ∈ es, ∀ f, fs.find? (fun f => same e.1 f.1) = some f ↔
      f ∈ fs ∧ Alike w e.1.toValue f.1.toValue := by
    intro e he f
    have hone : fs.Pairwise fun f g => same e.1 f.1 = true → same e.1 g.1 = false := by
      refine hd'.imp_of_mem fun {f g} hf hg hfg hef => Bool.eq_false_iff.mpr fun heg => hfg ?_
      exact ((hk e he f hf).mp hef).symm.trans ((hk e he g hg).mp heg)
    rw [find?_eq_some_iff_of_pairwise hone]
    exact and_congr_right fun hf => hk e he f hf
  have hmatched : ∀ e ∈ es, (∃ f, fs.find? (fun f => same e.1 f.1) = some f ∧ same e.2 f.2 = true) ↔
      Alike.Matched w (entryValues fs) (e.1.toValue, e.2.toValue) := by
    intro e he
    rw [entryValues_eq_map, Alike.Matched]
    constructor
    · rintro ⟨f, hf, hs⟩
      obtain ⟨hf, ha⟩ := (hfind e he f).mp hf
      exact ⟨_, List.mem_map_of_mem hf, ha, (hv e he f hf).mp hs⟩
    · rintro ⟨f', hf', ha, hs⟩
      obtain ⟨f, hf, rfl⟩ := List.mem_map.mp hf'
      exact ⟨f, (hfind e he f).mpr ⟨hf, ha⟩, (hv e he f hf).mpr hs⟩
  rw [Faithful, toValue, toValue, same, Bool.and_eq_true, beq_iff_eq, sameEntries_iff,
    Alike.map_iff_of_distinct (by rw [entryValues_eq_map]; exact List.pairwise_map.mpr hd)]
  refine and_congr (by rw [entryValues_eq_map, entryValues_eq_map, List.length_map, List.length_map]) ?_
  rw [entryValues_eq_map es, List.forall_mem_map]
  exact forall₂_congr hmatched

theorem Distinct.faithful (hf : Distinct w f) : ∀ g, Distinct w g → Faithful w f g := by
  induction hf with
  | atom a =>
    intro g _
    cases g with
    | atom b =>
      rw [Faithful, toValue, toValue, Alike.atom_iff]
      exact decide_eq_true_iff
    | _ => exact faithful_of_kind_ne rfl nofun
  | list _ ih =>
    intro g hg
    cases hg with
    | list hy =>
      exact sameItems_iff_alike rfl rfl (.list _) (.list _) fun x hx y hm => ih x hx y (hy y hm)
    | vector hy =>
      exact sameItems_iff_alike rfl rfl (.list _) (.vector _) fun x hx y hm => ih x hx y (hy y hm)
    | _ => exact faithful_of_kind_ne rfl nofun
  | vector _ ih =>
    intro g hg
    cases hg with
    | list hy =>
      exact sameItems_iff_alike rfl rfl (.vector _) (.list _) fun x hx y hm => ih x hx y (hy y hm)
    | vector hy =>
      exact sameItems_iff_alike rfl rfl (.vector _) (.vector _) fun x hx y hm => ih x hx y (hy y hm)
    | _ => exact faithful_of_kind_ne rfl nofun
  | map hd _ _ ihk ihv =>
    intro g hg
    cases hg with
    | map hd' hk hv =>
      exact faithful_map hd hd' (fun e he f hf => ihk e he f.1 (hk f hf))
        fun e he f hf => ihv e he f.2 (hv f hf)
    | _ => exact faithful_of_kind_ne rfl nofun

theorem Distinct.complete (hf : Distinct w f) : Complete w (Alike w) f.toValue := by
  induction hf with
  | atom a => exact .atom a
  | list _ ih =>
    rw [toValue, itemValues_eq_map]
    exact .list (List.forall_mem_map.mpr ih)
  | vector _ ih =>
    rw [toValue, itemValues_eq_map]
    exact .vector (List.forall_mem_map.mpr ih)
  | map hd _ _ ihk ihv =>
    rw [toValue, entryValues_eq_map]
    exact .map (List.pairwise_map.mpr hd) (List.forall_mem_map.mpr ihk) (List.forall_mem_map.mpr ihv)

theorem Readable.distinct (hf : f.Readable) : Distinct w f := by
  induction hf with
  | atom _ => exact .atom _
  | list _ ih => exact .list ih
  | vector _ ih => exact .vector ih
  | map hd _ _ ihk ihv =>
    refine .map (hd.imp_of_mem fun {d e} hdm hem hne ha => ?_) ihk ihv
    have hs := ((ihk d hdm).faithful e.1 (ihk e hem)).mpr ha
    simp [hne] at hs

theorem same_iff_alike (hf : f.Readable) (hg : g.Readable) :
    same f g = true ↔ Alike w f.toValue g.toValue :=
  hf.distinct.faithful g hg.distinct

theorem same_symm (hf : f.Readable) (hg : g.Readable) (hfg : same f g = true) : same g f = true := by
  rw [same_iff_alike (w := .empty) hf hg] at hfg
  rw [same_iff_alike (w := .empty) hg hf]
  exact hfg.symm

theorem same_trans (hf : f.Readable) (hg : g.Readable) (hh : h.Readable) (hfg : same f g = true)
    (hgh : same g h = true) : same f h = true := by
  rw [same_iff_alike (w := .empty) hf hg] at hfg
  rw [same_iff_alike (w := .empty) hg hh] at hgh
  rw [same_iff_alike (w := .empty) hf hh]
  exact hfg.trans hgh

def lastValue (key value : Form) (es : List (Form × Form)) : Form :=
  es.foldl (fun v e => if same key e.1 then e.2 else v) value

/-- Each key where it stands first, with the value that it has last. -/
def merged : List (Form × Form) → List (Form × Form)
  | [] => []
  | (key, value) :: es =>
    (key, lastValue key value es) :: (merged es).filter fun e => !same key e.1

theorem key_of_mem_merged {es : List (Form × Form)} {e : Form × Form} (he : e ∈ merged es) :
    ∃ d ∈ es, e.1 = d.1 := by
  induction es with
  | nil => cases he
  | cons d es ih =>
    obtain ⟨key, value⟩ := d
    rcases List.mem_cons.mp he with rfl | he
    · exact ⟨(key, value), by simp, rfl⟩
    · obtain ⟨d, hd, hk⟩ := ih (List.mem_of_mem_filter he)
      exact ⟨d, by simp [hd], hk⟩

section Filter

variable {key₀ key value : Form} {es : List (Form × Form)}

theorem filter_putEntry_of_same (h₀ : same key₀ key = true)
    (hes : ∀ e ∈ es, same e.1 key = true → same key₀ e.1 = true) :
    (putEntry es key value).filter (fun e => !same key₀ e.1) = es.filter fun e => !same key₀ e.1 := by
  induction es with
  | nil => simp [putEntry, h₀]
  | cons e es ih =>
    obtain ⟨k, v⟩ := e
    rw [putEntry]
    split
    · next hk =>
      have hk₀ := hes (k, v) (by simp) hk
      simp [hk₀]
    · simp only [List.filter_cons]
      rw [ih fun e he => hes e (by simp [he])]

theorem filter_putEntry_of_not_same (h₀ : same key₀ key = false)
    (hes : ∀ e ∈ es, same key₀ e.1 = true → same e.1 key = false) :
    (putEntry es key value).filter (fun e => !same key₀ e.1) =
      putEntry (es.filter fun e => !same key₀ e.1) key value := by
  induction es with
  | nil => simp [putEntry, h₀]
  | cons e es ih =>
    obtain ⟨k, v⟩ := e
    have ih := ih fun e he => hes e (by simp [he])
    have hk := hes (k, v) (by simp)
    cases hk₀ : same key₀ k with
    | true => simp [putEntry, hk hk₀, hk₀, ih]
    | false =>
      cases hkk : same k key with
      | true => simp [putEntry, hk₀, hkk]
      | false => simp [putEntry, hk₀, hkk, ih]

end Filter

theorem merged_concat {es : List (Form × Form)} {key value : Form} (hes : ∀ e ∈ es, e.1.Readable)
    (hk : key.Readable) : merged (es ++ [(key, value)]) = putEntry (merged es) key value := by
  induction es with
  | nil => rfl
  | cons e es ih =>
    obtain ⟨k, v⟩ := e
    have hk₀ : k.Readable := hes (k, v) (by simp)
    have hm : ∀ e ∈ merged es, e.1.Readable := by
      intro e he
      obtain ⟨d, hd, hkey⟩ := key_of_mem_merged he
      rw [hkey]
      exact hes d (by simp [hd])
    rw [List.cons_append, merged, ih fun e he => hes e (by simp [he]), merged, putEntry]
    cases hs : same k key with
    | true =>
      rw [filter_putEntry_of_same hs fun e he hek => same_trans hk₀ hk (hm e he) hs
        (same_symm (hm e he) hk hek)]
      simp [lastValue, hs]
    | false =>
      rw [filter_putEntry_of_not_same hs fun e he hke => Bool.eq_false_iff.mpr fun hek => by
        simp [same_trans hk₀ (hm e he) hk hke hek] at hs]
      simp [lastValue, hs]

theorem ofItemsOnto_entryItems_eq_foldl (acc es : List (Form × Form)) :
    ofItemsOnto acc (entryItems es) =
      some (.map (es.foldl (fun acc e => putEntry acc e.1 e.2) acc)) := by
  induction es generalizing acc with
  | nil => rfl
  | cons e es ih => exact ih (putEntry acc e.1 e.2)

theorem foldl_putEntry_eq_merged {es : List (Form × Form)} (hes : ∀ e ∈ es, e.1.Readable) :
    es.foldl (fun acc e => putEntry acc e.1 e.2) [] = merged es := by
  induction es using List.reverseRecOn with
  | nil => rfl
  | append_singleton es e ih =>
    rw [List.foldl_append, ih fun e he => hes e (by simp [he]),
      merged_concat (fun e he => hes e (by simp [he])) (hes e (by simp))]
    rfl

theorem mapOfItems?_entryItems {es : List (Form × Form)} (hes : ∀ e ∈ es, e.1.Readable) :
    mapOfItems? (entryItems es) = some (.map (merged es)) := by
  rw [mapOfItems?, ofItemsOnto_entryItems_eq_foldl, foldl_putEntry_eq_merged hes]

end LazyLisp.Form
