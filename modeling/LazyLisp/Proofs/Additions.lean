import LazyLisp.Proofs.Maps
import LazyLisp.Proofs.Sequences

namespace LazyLisp

theorem entryArgs_append (ps qs : List (Value × Value)) :
    entryArgs (ps ++ qs) = entryArgs ps ++ entryArgs qs := List.flatMap_append

def consOnto (c : Value) (xs : List Value) : Value := xs.foldl (fun rest x => .cons x rest) c

theorem consOnto_append (c : Value) (xs ys : List Value) :
    consOnto c (xs ++ ys) = consOnto (consOnto c xs) ys := List.foldl_append

def Value.isChain : Value → Bool
  | .cons _ _ | .lazy _ => true
  | _ => false

theorem isChain_consOnto {c : Value} (h : c.isChain = true) (xs : List Value) : (consOnto c xs).isChain = true := by
  induction xs generalizing c with
  | nil => exact h
  | cons x xs ih => exact ih (c := .cons x c) rfl

namespace Kernel

section

variable (k : Kernel)

theorem addEntries_append (es : List (Value × Value)) (xs ys : List Value) :
    k.addEntries es (xs ++ ys) = k.addEntries es xs >>= fun es' => k.addEntries es' ys := by
  induction xs generalizing es with
  | nil => rw [List.nil_append, addEntries, pure_bind]
  | cons x xs ih =>
    rw [List.cons_append, addEntries, addEntries, bind_assoc]
    refine bind_congr fun parts => ?_
    -- Only two parts are an entry; with any other number of them both sides fail.
    match parts with
    | [] => rfl
    | [_] => rfl
    | [key, value] =>
      simp only [bind_assoc]
      exact bind_congr fun es' => ih es'
    | _ :: _ :: _ :: _ => rfl

theorem conj_of_isChain {c : Value} (h : c.isChain = true) (xs : List Value) :
    k.conj c xs = pure (consOnto c xs) := by
  cases c with
  | cons x rest => rfl
  | lazy i => rfl
  | _ => cases h

theorem conj_append (c : Value) (xs ys : List Value) :
    k.conj c (xs ++ ys) = k.conj c xs >>= fun d => k.conj d ys := by
  have hchain (h : c.isChain = true) : k.conj c (xs ++ ys) = k.conj c xs >>= fun d => k.conj d ys := by
    rw [conj_of_isChain k h, conj_of_isChain k h, pure_bind, conj_of_isChain k (isChain_consOnto h xs),
      consOnto_append]
  cases c with
  | atom a =>
    cases a with
    | nil => simp only [conj, List.reverse_append, pure_bind]
    | _ => rfl
  | list zs => simp only [conj, List.reverse_append, List.append_assoc, pure_bind]
  | vector zs => simp only [conj, List.append_assoc, pure_bind]
  | map es => simp only [conj, addEntries_append, bind_assoc, pure_bind]
  | cons x rest => exact hchain rfl
  | lazy i => exact hchain rfl
  | callable i f => rfl

theorem putPairs_append (es ps : List (Value × Value)) (args : List Value) :
    k.putPairs es (entryArgs ps ++ args) = k.putPairs es (entryArgs ps) >>= fun es' => k.putPairs es' args := by
  induction ps generalizing es with
  | nil => rfl
  | cons p ps ih =>
    change (k.putEntry es p.1 p.2 >>= fun es' => k.putPairs es' (entryArgs ps ++ args)) = _
    simp only [ih]
    exact (bind_assoc _ _ _).symm

theorem assoc_append (m : Value) (ps qs : List (Value × Value)) :
    k.assoc m (entryArgs (ps ++ qs)) = k.assoc m (entryArgs ps) >>= fun m' => k.assoc m' (entryArgs qs) := by
  have hentries {m : Value} {es : List (Value × Value)} (hm : m = .map es ∨ m = .nil ∧ es = []) :
      k.assoc m (entryArgs (ps ++ qs)) = k.assoc m (entryArgs ps) >>= fun m' => k.assoc m' (entryArgs qs) := by
    rw [assoc_eq_putPairs hm (length_entryArgs _), assoc_eq_putPairs hm (length_entryArgs _), entryArgs_append,
      putPairs_append]
    simp only [bind_assoc, pure_bind, assoc_eq_putPairs (.inl rfl) (length_entryArgs qs)]
  cases m with
  | atom a =>
    cases a with
    | nil => exact hentries (.inr ⟨rfl, rfl⟩)
    | _ => rfl
  | map es => exact hentries (.inl rfl)
  | _ => rfl

theorem hashMap_eq_assoc_nil (ps : List (Value × Value)) :
    k.hashMap (entryArgs ps) = k.assoc .nil (entryArgs ps) := by
  rw [hashMap, if_pos (length_entryArgs ps), assoc_eq_putPairs (.inr ⟨rfl, rfl⟩) (length_entryArgs ps)]

end

theorem apply_conj_append (n : Nat) (c : Value) (xs ys : List Value) :
    (withFuel n).apply (.primitive .conj) (c :: (xs ++ ys)) =
      (withFuel n).apply (.primitive .conj) (c :: xs) >>= fun d =>
        (withFuel n).apply (.primitive .conj) (d :: ys) := by
  cases n with
  | zero => rfl
  | succ n =>
    have hone (c : Value) (xs : List Value) :
        (withFuel (n + 1)).apply (.primitive .conj) (c :: xs) = (withFuel n).conj c xs :=
      apply_primitive (by simp [Primitive.arity, Arity.accepts]) n
    simp only [hone, conj_append]

theorem apply_conj_eq_foldlM (n : Nat) (c x : Value) (xs : List Value) :
    (withFuel n).apply (.primitive .conj) (c :: x :: xs) =
      (x :: xs).foldlM (fun d y => (withFuel n).apply (.primitive .conj) [d, y]) c := by
  induction xs using List.reverseRecOn with
  | nil => exact (bind_pure _).symm
  | append_singleton xs y ih =>
    rw [← List.cons_append, apply_conj_append, ih, List.foldlM_append]
    exact bind_congr fun d => (bind_pure _).symm

theorem apply_assoc (n : Nat) (m : Value) {ps : List (Value × Value)} (hps : ps ≠ []) :
    (withFuel (n + 1)).apply (.primitive .assoc) (m :: entryArgs ps) = (withFuel n).assoc m (entryArgs ps) := by
  cases ps with
  | nil => exact absurd rfl hps
  | cons p ps => exact apply_primitive (by simp [Primitive.arity, Arity.accepts, entryArgs]) n

theorem apply_assoc_append (n : Nat) (m : Value) {ps qs : List (Value × Value)} (hps : ps ≠ []) (hqs : qs ≠ []) :
    (withFuel n).apply (.primitive .assoc) (m :: entryArgs (ps ++ qs)) =
      (withFuel n).apply (.primitive .assoc) (m :: entryArgs ps) >>= fun m' =>
        (withFuel n).apply (.primitive .assoc) (m' :: entryArgs qs) := by
  cases n with
  | zero => rfl
  | succ n =>
    simp only [apply_assoc n _ hps, apply_assoc n _ hqs, apply_assoc n _ (List.append_ne_nil_of_left_ne_nil hps qs),
      assoc_append]

theorem apply_hashMap (n : Nat) {ps : List (Value × Value)} (hps : ps ≠ []) :
    (withFuel n).apply (.primitive .hashMap) (entryArgs ps) =
      (withFuel n).apply (.primitive .assoc) (.nil :: entryArgs ps) := by
  cases n with
  | zero => rfl
  | succ n =>
    have hone : (withFuel (n + 1)).apply (.primitive .hashMap) (entryArgs ps) = (withFuel n).hashMap (entryArgs ps) :=
      apply_primitive (by simp [Primitive.arity, Arity.accepts]) n
    rw [hone, apply_assoc n _ hps, hashMap_eq_assoc_nil]

/-- A call of `conj` or `assoc` does what two calls of it do of which the second goes on with what the first
gives, and `hash-map` does what `assoc` does with `nil`: they come to the same value in the same world, or to
the same failure. -/
theorem add_one_after_another (n : Nat) :
    (∀ (c : Value) (xs ys : List Value), (withFuel n).apply (.primitive .conj) (c :: (xs ++ ys)) =
      (withFuel n).apply (.primitive .conj) (c :: xs) >>= fun d =>
        (withFuel n).apply (.primitive .conj) (d :: ys)) ∧
    (∀ (c x : Value) (xs : List Value), (withFuel n).apply (.primitive .conj) (c :: x :: xs) =
      (x :: xs).foldlM (fun d y => (withFuel n).apply (.primitive .conj) [d, y]) c) ∧
    (∀ (m : Value) (ps qs : List (Value × Value)), ps ≠ [] → qs ≠ [] →
      (withFuel n).apply (.primitive .assoc) (m :: entryArgs (ps ++ qs)) =
        (withFuel n).apply (.primitive .assoc) (m :: entryArgs ps) >>= fun m' =>
          (withFuel n).apply (.primitive .assoc) (m' :: entryArgs qs)) ∧
    ∀ ps : List (Value × Value), ps ≠ [] → (withFuel n).apply (.primitive .hashMap) (entryArgs ps) =
      (withFuel n).apply (.primitive .assoc) (.nil :: entryArgs ps) :=
  ⟨apply_conj_append n, apply_conj_eq_foldlM n, fun m _ _ => apply_assoc_append n m, fun _ => apply_hashMap n⟩

theorem add_one_after_another_entries :
    ((withFuel 5).apply (.primitive .assoc) (.nil :: entryArgs [(.int 1, .int 2)]) >>= fun m =>
        (withFuel 5).apply (.primitive .assoc) (m :: entryArgs [(.int 1, .int 3), (.int 4, .int 5)]))
        World.empty = .value (.map [(.int 1, .int 3), (.int 4, .int 5)]) World.empty ∧
      ((withFuel 5).apply (.primitive .conj) [.map [], .vector [.int 1, .int 2]] >>= fun m =>
        (withFuel 5).apply (.primitive .conj) [m, .vector [.int 3], .vector [.int 4, .int 5]])
        World.empty = .failure (.typeMismatch .map) World.empty := by
  obtain ⟨hconj, -, hassoc, -⟩ := add_one_after_another 5
  rw [← hassoc .nil _ _ (List.cons_ne_nil _ _) (List.cons_ne_nil _ _),
    ← hconj (.map []) [.vector [.int 1, .int 2]] [.vector [.int 3], .vector [.int 4, .int 5]]]
  exact ⟨rfl, rfl⟩

end Kernel
end LazyLisp
