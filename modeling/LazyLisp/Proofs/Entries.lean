import Mathlib.Data.List.Induction
import Mathlib.Data.Set.Card

namespace LazyLisp.Entries

variable {K V : Type} {same same' : K → K → Bool} {P : K → Prop} {key : K} {value : V}
  {r es : List (K × V)}

def put (same : K → K → Bool) (key : K) (value : V) : List (K × V) → List (K × V)
  | [] => [(key, value)]
  | (k, v) :: r => if same k key then (k, value) :: r else (k, v) :: put same key value r

def putAll (same : K → K → Bool) (es : List (K × V)) : List (K × V) :=
  es.foldl (fun r e => put same e.1 e.2 r) []

theorem putAll_concat (same : K → K → Bool) (es : List (K × V)) (e : K × V) :
    putAll same (es ++ [e]) = put same e.1 e.2 (putAll same es) := by
  rw [putAll, List.foldl_append]
  rfl

theorem map_fst_put : (put same key value r).map Prod.fst =
    if (r.map Prod.fst).any (fun k => same k key) then r.map Prod.fst else r.map Prod.fst ++ [key] := by
  induction r with
  | nil => rfl
  | cons e r ih =>
    obtain ⟨k, v⟩ := e
    cases hk : same k key with
    | true => simp [put, hk]
    | false =>
      simp only [put, hk, Bool.false_eq_true, if_false, List.map_cons, ih, List.any_cons, Bool.false_or]
      split <;> rfl

theorem eraseDupsBy_concat (test : K → K → Bool) (ks : List K) (k : K) :
    (ks ++ [k]).eraseDupsBy test =
      if (ks.eraseDupsBy test).any (test k) then ks.eraseDupsBy test else ks.eraseDupsBy test ++ [k] := by
  have loop (seen : List K) : List.eraseDupsBy.loop test (ks ++ [k]) seen =
      if (List.eraseDupsBy.loop test ks seen).any (test k) then List.eraseDupsBy.loop test ks seen
      else List.eraseDupsBy.loop test ks seen ++ [k] := by
    induction ks generalizing seen with
    | nil =>
      simp only [List.nil_append, List.eraseDupsBy.loop, List.any_reverse]
      cases seen.any (test k) <;> simp
    | cons k' ks ih =>
      simp only [List.cons_append, List.eraseDupsBy.loop]
      rcases Bool.eq_false_or_eq_true (seen.any (test k')) with hs | hs
      · simp only [hs, ih seen]
      · simp only [hs, ih (k' :: seen)]
  exact loop []

theorem map_fst_putAll (same : K → K → Bool) (es : List (K × V)) :
    (putAll same es).map Prod.fst =
      (es.map Prod.fst).eraseDupsBy fun later earlier => same earlier later := by
  induction es using List.reverseRecOn with
  | nil => rfl
  | append_singleton es e ih =>
    rw [putAll_concat, map_fst_put, ih, List.map_append]
    exact (eraseDupsBy_concat _ _ e.1).symm

theorem forall_fst_putAll (h : ∀ e ∈ es, P e.1) : ∀ e ∈ putAll same es, P e.1 := by
  induction es using List.reverseRecOn with
  | nil => exact nofun
  | append_singleton es e ih =>
    have ih := ih fun d hd => h d (by simp [hd])
    have he : P e.1 := h e (by simp)
    rw [← List.forall_mem_map (f := Prod.fst) (P := P)] at ih ⊢
    rw [putAll_concat, map_fst_put]
    split
    · exact ih
    · exact List.forall_mem_append.mpr ⟨ih, List.forall_mem_singleton.mpr he⟩

theorem pairwise_putAll (same : K → K → Bool) (es : List (K × V)) :
    (putAll same es).Pairwise fun d e => same d.1 e.1 = false := by
  induction es using List.reverseRecOn with
  | nil => exact .nil
  | append_singleton es e ih =>
    rw [← List.pairwise_map (R := fun k k' => same k k' = false)] at ih ⊢
    rw [putAll_concat, map_fst_put]
    split
    · exact ih
    · next hn =>
      refine List.pairwise_append.mpr ⟨ih, List.pairwise_singleton _ _, fun k hk k' hk' => ?_⟩
      rw [List.mem_singleton.mp hk']
      simpa using fun hs => hn (List.any_eq_true.mpr ⟨k, hk, hs⟩)

theorem put_congr (h : ∀ e ∈ r, same e.1 key = same' e.1 key) :
    put same key value r = put same' key value r := by
  induction r with
  | nil => rfl
  | cons e r ih =>
    obtain ⟨k, v⟩ := e
    rw [put, put, h (k, v) (by simp), ih fun e he => h e (by simp [he])]

theorem putAll_congr (h : ∀ d ∈ es, ∀ e ∈ es, same d.1 e.1 = same' d.1 e.1) :
    putAll same es = putAll same' es := by
  induction es using List.reverseRecOn with
  | nil => rfl
  | append_singleton es e ih =>
    have hes : ∀ d ∈ es, same d.1 e.1 = same' d.1 e.1 := fun d hd => h d (by simp [hd]) e (by simp)
    rw [putAll_concat, putAll_concat, ← ih fun d hd e he => h d (by simp [hd]) e (by simp [he])]
    exact put_congr (forall_fst_putAll (P := fun k => same k e.1 = same' k e.1) hes)

structure Sameness (same : K → K → Bool) (P : K → Prop) : Prop where
  refl : ∀ {a}, P a → same a a = true
  symm : ∀ {a b}, P a → P b → same a b = true → same b a = true
  trans : ∀ {a b c}, P a → P b → P c → same a b = true → same b c = true → same a c = true

def kindOf (same : K → K → Bool) (ks : List K) (k : K) : Set K := {k' | k' ∈ ks ∧ same k k' = true}

def kinds (same : K → K → Bool) (ks : List K) : Set (Set K) := {c | ∃ k ∈ ks, c = kindOf same ks k}

namespace Sameness

variable (h : Sameness same P) {a b c : K}
include h

theorem congr_left (ha : P a) (hb : P b) (hc : P c) (hab : same a b = true) : same a c = same b c := by
  rw [Bool.eq_iff_iff]
  constructor
  · exact h.trans hb ha hc (h.symm ha hb hab)
  · exact h.trans ha hb hc hab

theorem find?_put (hr : ∀ e ∈ r, P e.1) (ha : P a) (hb : P b) :
    ((put same a value r).find? fun e => same e.1 b).map Prod.snd =
      if same a b then some value else (r.find? fun e => same e.1 b).map Prod.snd := by
  induction r with
  | nil => cases hab : same a b <;> simp [put, hab]
  | cons e r ih =>
    obtain ⟨k, v⟩ := e
    have hk : P k := hr (k, v) (by simp)
    have ih := ih fun e he => hr e (by simp [he])
    cases hka : same k a with
    | true =>
      have hkb := h.congr_left hk ha hb hka
      cases hab : same a b <;> simp [put, hka, hkb, hab]
    | false =>
      cases hkb : same k b with
      | true =>
        have hab : same a b = false := by
          by_contra hab
          have hba := h.symm ha hb (by simpa using hab)
          rw [h.trans hk hb ha hkb hba] at hka
          cases hka
        simp [put, hka, hkb, hab]
      | false => simpa [put, hka, hkb] using ih

theorem find?_putAll (hes : ∀ e ∈ es, P e.1) (hb : P b) :
    ((putAll same es).find? fun e => same e.1 b).map Prod.snd =
      (es.reverse.find? fun e => same e.1 b).map Prod.snd := by
  induction es using List.reverseRecOn with
  | nil => rfl
  | append_singleton es e ih =>
    have hes' : ∀ d ∈ es, P d.1 := fun d hd => hes d (by simp [hd])
    rw [putAll_concat, h.find?_put (forall_fst_putAll hes') (hes e (by simp)) hb, ih hes',
      List.reverse_append]
    cases heb : same e.1 b <;> simp [heb]

theorem exists_mem_putAll (hes : ∀ e ∈ es, P e.1) {e : K × V} (he : e ∈ es) :
    ∃ d ∈ putAll same es, same d.1 e.1 = true := by
  have hf := h.find?_putAll hes (hes e he)
  have hl : (es.reverse.find? fun d => same d.1 e.1).isSome := by
    rw [List.find?_isSome]
    exact ⟨e, by simpa using he, h.refl (hes e he)⟩
  rw [← Option.isSome_map (f := Prod.snd), ← hf, Option.isSome_map, List.find?_isSome] at hl
  exact hl

theorem kindOf_eq {ks : List K} (hks : ∀ k ∈ ks, P k) (ha : P a) (hb : P b) (hab : same a b = true) :
    kindOf same ks a = kindOf same ks b := by
  ext k
  exact and_congr_right fun hk => by rw [h.congr_left ha hb (hks k hk) hab]

theorem length_putAll (hes : ∀ e ∈ es, P e.1) :
    (putAll same es).length = (kinds same (es.map Prod.fst)).ncard := by
  classical
  have hput : ∀ e ∈ putAll same es, P e.1 := forall_fst_putAll hes
  have hmem : ∀ e ∈ putAll same es, e.1 ∈ es.map Prod.fst :=
    forall_fst_putAll (P := fun k => k ∈ es.map Prod.fst) fun e he => List.mem_map_of_mem he
  have hnodup : ((putAll same es).map fun e => kindOf same (es.map Prod.fst) e.1).Nodup := by
    refine List.pairwise_map.mpr ((pairwise_putAll same es).imp_of_mem fun {d e} _ he hde hk => ?_)
    have hself : e.1 ∈ kindOf same (es.map Prod.fst) d.1 := hk ▸ ⟨hmem e he, h.refl (hput e he)⟩
    rw [hself.2] at hde
    cases hde
  have hkinds : kinds same (es.map Prod.fst) =
      {c | c ∈ (putAll same es).map fun e => kindOf same (es.map Prod.fst) e.1} := by
    ext c
    simp only [kinds, Set.mem_ofPred_eq, List.mem_map]
    constructor
    · rintro ⟨_, ⟨e, he, rfl⟩, rfl⟩
      obtain ⟨d, hd, hs⟩ := h.exists_mem_putAll hes he
      exact ⟨d, hd, h.kindOf_eq (List.forall_mem_map.mpr hes) (hput d hd) (hes e he) hs⟩
    · rintro ⟨d, hd, rfl⟩
      exact ⟨d.1, List.mem_map.mp (hmem d hd), rfl⟩
  rw [hkinds, ← List.coe_toFinset, Set.ncard_coe_finset, List.toFinset_card_of_nodup hnodup,
    List.length_map]

end Sameness

end LazyLisp.Entries
