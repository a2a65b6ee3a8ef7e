import Mathlib.Algebra.BigOperators.Group.List.Basic
import Mathlib.Data.Int.ModEq
import LazyLisp.Proofs.Sequences

namespace LazyLisp

theorem word_modEq_iff {i : Int64} {z : ℤ} : i.toInt ≡ z [ZMOD 2 ^ 64] ↔ i = .ofInt z := by
  have hself : i.toInt.bmod (2 ^ 64) = i.toInt :=
    (Int64.ofInt_eq_iff_bmod_eq_toInt i.toInt i).mp (Int64.ofInt_toInt i)
  constructor
  · intro h
    have hmod : i.toInt % ((2 ^ 64 : Nat) : ℤ) = z % ((2 ^ 64 : Nat) : ℤ) := h
    refine ((Int64.ofInt_eq_iff_bmod_eq_toInt z i).mpr ?_).symm
    rw [← Int.emod_bmod, ← hmod, Int.emod_bmod, hself]
  · rintro rfl
    rw [Int64.toInt_ofInt]
    exact Int.bmod_emod

namespace Arithmetic

variable {vs us ws : List Value} {f : List Int64 → Int64}

theorem foldl_add_eq (i : Int64) (is : List Int64) :
    is.foldl (· + ·) i = .ofInt (i.toInt + (is.map Int64.toInt).sum) := by
  induction is generalizing i with
  | nil => simp
  | cons j is ih =>
    rw [List.foldl_cons, ih, List.map_cons, List.sum_cons]
    simp only [Int64.ofInt_add, Int64.ofInt_toInt, Int64.add_assoc]

theorem foldl_mul_eq (i : Int64) (is : List Int64) :
    is.foldl (· * ·) i = .ofInt (i.toInt * (is.map Int64.toInt).prod) := by
  induction is generalizing i with
  | nil => simp
  | cons j is ih =>
    rw [List.foldl_cons, ih, List.map_cons, List.prod_cons]
    simp only [Int64.ofInt_mul, Int64.ofInt_toInt, Int64.mul_assoc]

theorem foldl_sub_eq (i : Int64) (is : List Int64) :
    is.foldl (· - ·) i = .ofInt (i.toInt - (is.map Int64.toInt).sum) := by
  induction is generalizing i with
  | nil => simp
  | cons j is ih =>
    rw [List.foldl_cons, ih, List.map_cons, List.sum_cons, ← Int.sub_sub]
    simp only [Int64.ofInt_sub, Int64.ofInt_toInt]

theorem sum_eq_ofInt (is : List Int64) : sum is = .ofInt (is.map Int64.toInt).sum := by
  rw [sum, foldl_add_eq, Int64.toInt_zero, Int.zero_add]

theorem product_eq_ofInt (is : List Int64) : product is = .ofInt (is.map Int64.toInt).prod := by
  rw [product, foldl_mul_eq, Int64.toInt_one, Int.one_mul]

theorem sum_perm {is js : List Int64} (h : is.Perm js) : sum is = sum js := by
  rw [sum_eq_ofInt, sum_eq_ofInt, (h.map Int64.toInt).sum_eq]

theorem product_perm {is js : List Int64} (h : is.Perm js) : product is = product js := by
  rw [product_eq_ofInt, product_eq_ofInt, (h.map Int64.toInt).prod_eq]

theorem sum_cons (i : Int64) (is : List Int64) : sum (i :: is) = i + sum is := by
  simp only [sum_eq_ofInt, List.map_cons, List.sum_cons, Int64.ofInt_add, Int64.ofInt_toInt]

theorem product_cons (i : Int64) (is : List Int64) : product (i :: is) = i * product is := by
  simp only [product_eq_ofInt, List.map_cons, List.prod_cons, Int64.ofInt_mul, Int64.ofInt_toInt]

theorem sum_append (is js : List Int64) : sum (is ++ js) = sum is + sum js := by
  simp only [sum_eq_ofInt, List.map_append, List.sum_append, Int64.ofInt_add]

theorem product_append (is js : List Int64) : product (is ++ js) = product is * product js := by
  simp only [product_eq_ofInt, List.map_append, List.prod_append, Int64.ofInt_mul]

def Groups (f : List Int64 → Int64) : Prop :=
  ∀ is js ks : List Int64, f (is ++ (f js :: ks)) = f (is ++ (js ++ ks))

theorem groups_sum : Groups sum := by
  intro is js ks
  rw [sum_append, sum_cons, sum_append, sum_append]

theorem groups_product : Groups product := by
  intro is js ks
  rw [product_append, product_cons, product_append, product_append]

theorem exists_map_int_or (vs : List Value) :
    (∃ is : List Int64, vs = is.map .int) ∨ ∃ v ∈ vs, ∀ i, v ≠ .int i := by
  induction vs with
  | nil => exact .inl ⟨[], rfl⟩
  | cons v vs ih =>
    by_cases hv : ∃ i, v = .int i
    · obtain ⟨i, rfl⟩ := hv
      rcases ih with ⟨is, rfl⟩ | ⟨u, hu, hne⟩
      · exact .inl ⟨i :: is, rfl⟩
      · exact .inr ⟨u, List.mem_cons_of_mem _ hu, hne⟩
    · exact .inr ⟨v, List.mem_cons_self, not_exists.mp hv⟩

theorem integers_map_int (is : List Int64) : integers (is.map .int) = pure is := by
  induction is with
  | nil => rfl
  | cons i is ih =>
    rw [List.map_cons, integers, Eval.requireInt, pure_bind, ih, pure_bind]

theorem requireInt_eq_fail {v : Value} (h : ∀ i, v ≠ .int i) :
    Eval.requireInt v = .fail (.typeMismatch .integer) := by
  unfold Eval.requireInt
  split
  · exact absurd rfl (h _)
  · rfl

theorem integers_eq_fail (h : ∃ v ∈ vs, ∀ i, v ≠ .int i) : integers vs = .fail (.typeMismatch .integer) := by
  obtain ⟨v, hv, hne⟩ := h
  induction vs with
  | nil => cases hv
  | cons u vs ih =>
    rw [integers]
    rcases List.mem_cons.mp hv with rfl | hmem
    · rw [requireInt_eq_fail hne]
      rfl
    · by_cases hu : ∃ i, u = .int i
      · obtain ⟨i, rfl⟩ := hu
        rw [ih hmem]
        rfl
      · rw [requireInt_eq_fail (not_exists.mp hu)]
        rfl

theorem compute_map_int (f : List Int64 → Int64) (is : List Int64) :
    compute f (is.map .int) = pure (.int (f is)) := by
  rw [compute, integers_map_int, pure_bind]

theorem compute_eq_fail (f : List Int64 → Int64) (h : ∃ v ∈ vs, ∀ i, v ≠ .int i) :
    compute f vs = .fail (.typeMismatch .integer) := by
  rw [compute, integers_eq_fail h]
  rfl

theorem not_int_mem_map_int (is : List Int64) : ¬ ∃ v ∈ is.map Value.int, ∀ i, v ≠ .int i := by
  rintro ⟨v, hv, hne⟩
  obtain ⟨i, -, rfl⟩ := List.mem_map.mp hv
  exact hne i rfl

theorem compute_eq_failure_iff {w : World} :
    compute f vs w = .failure (.typeMismatch .integer) w ↔ ∃ v ∈ vs, ∀ i, v ≠ .int i := by
  constructor
  · intro h
    rcases exists_map_int_or vs with ⟨is, rfl⟩ | hne
    · rw [compute_map_int] at h
      cases h
    · exact hne
  · intro h
    rw [compute_eq_fail f h]
    rfl

theorem compute_perm (hf : ∀ is js : List Int64, is.Perm js → f is = f js) (h : vs.Perm us) :
    compute f vs = compute f us := by
  rcases exists_map_int_or vs with ⟨is, rfl⟩ | ⟨v, hv, hne⟩
  · rcases exists_map_int_or us with ⟨js, rfl⟩ | ⟨u, hu, hne⟩
    · have hinj : Function.Injective Value.int := fun i j hij => by
        cases hij
        rfl
      rw [compute_map_int, compute_map_int, hf is js ((List.map_perm_map_iff hinj).mp h)]
    · exact absurd ⟨u, h.mem_iff.mpr hu, hne⟩ (not_int_mem_map_int is)
  · rw [compute_eq_fail f ⟨v, hv, hne⟩, compute_eq_fail f ⟨v, h.mem_iff.mp hv, hne⟩]

theorem compute_bind (hf : Groups f) (us vs ws : List Value) :
    (compute f vs >>= fun v => compute f (us ++ (v :: ws))) = compute f (us ++ (vs ++ ws)) := by
  rcases exists_map_int_or vs with ⟨js, rfl⟩ | ⟨v, hv, hne⟩
  · rw [compute_map_int, pure_bind]
    rcases exists_map_int_or us with ⟨is, rfl⟩ | ⟨u, hu, hne⟩
    · rcases exists_map_int_or ws with ⟨ks, rfl⟩ | ⟨u, hu, hne⟩
      · rw [← List.map_cons, ← List.map_append, ← List.map_append, ← List.map_append, compute_map_int,
          compute_map_int, hf]
      · rw [compute_eq_fail f ⟨u, by simp [hu], hne⟩, compute_eq_fail f ⟨u, by simp [hu], hne⟩]
    · rw [compute_eq_fail f ⟨u, by simp [hu], hne⟩, compute_eq_fail f ⟨u, by simp [hu], hne⟩]
  · rw [compute_eq_fail f ⟨v, hv, hne⟩, compute_eq_fail f ⟨v, by simp [hv], hne⟩]
    rfl

end Arithmetic

inductive Grouping where
  | value (v : Value)
  | call (parts : List Grouping)

namespace Grouping

mutual

def flat : Grouping → List Value
  | value v => [v]
  | call parts => flatParts parts

def flatParts : List Grouping → List Value
  | [] => []
  | g :: gs => flat g ++ flatParts gs

end

mutual

def run (f : List Value → Eval Value) : Grouping → Eval Value
  | value v => pure v
  | call parts => do
    let vs ← runParts f parts
    f vs

def runParts (f : List Value → Eval Value) : List Grouping → Eval (List Value)
  | [] => pure []
  | g :: gs => do
    let v ← run f g
    let vs ← runParts f gs
    pure (v :: vs)

end

theorem runParts_bind {f : List Int64 → Int64} (hf : Arithmetic.Groups f) (us : List Value) :
    (gs : List Grouping) → (runParts (Arithmetic.compute f) gs >>= fun vs => Arithmetic.compute f (us ++ vs)) =
      Arithmetic.compute f (us ++ flatParts gs)
  | [] => by rw [runParts, pure_bind, flatParts]
  | .value v :: gs => by
    have ih := runParts_bind hf (us ++ [v]) gs
    simp only [List.append_assoc, List.singleton_append] at ih
    simp only [runParts, run, flatParts, flat, pure_bind, bind_assoc, List.singleton_append, ih]
  | .call parts :: gs => by
    -- The inner call comes first. Its value then stands among the arguments of the outer one.
    have hin := runParts_bind hf [] parts
    have ih (v : Value) := runParts_bind hf (us ++ [v]) gs
    simp only [List.nil_append] at hin
    simp only [List.append_assoc, List.singleton_append] at ih
    simp only [runParts, run, flatParts, flat, pure_bind, bind_assoc, ih]
    rw [← bind_assoc, hin, Arithmetic.compute_bind hf]

theorem run_call {f : List Int64 → Int64} (hf : Arithmetic.Groups f) (parts : List Grouping) :
    (call parts).run (Arithmetic.compute f) = Arithmetic.compute f (flatParts parts) :=
  runParts_bind hf [] parts

end Grouping

namespace Kernel

theorem apply_add (n : Nat) : (withFuel (n + 1)).apply (.primitive .add) = Arithmetic.compute Arithmetic.sum := by
  funext vs
  exact apply_primitive (by simp [Primitive.arity, Arity.accepts]) n

theorem apply_multiply (n : Nat) :
    (withFuel (n + 1)).apply (.primitive .multiply) = Arithmetic.compute Arithmetic.product := by
  funext vs
  exact apply_primitive (by simp [Primitive.arity, Arity.accepts]) n

theorem apply_subtract (n : Nat) {vs : List Value} (h : vs ≠ []) :
    (withFuel (n + 1)).apply (.primitive .subtract) vs = Arithmetic.compute Arithmetic.difference vs := by
  refine apply_primitive ?_ n
  simpa [Primitive.arity, Arity.accepts, Nat.one_le_iff_ne_zero] using h

theorem apply_subtract_nil (n : Nat) (w : World) :
    (withFuel (n + 1)).apply (.primitive .subtract) [] w =
      .failure (.wrongArgumentCount "-" (.atLeast 1) 0) w := rfl

def Gives (n : Nat) (p : Primitive) (is : List Int64) (z : ℤ) : Prop :=
  ∃ i : Int64, (∀ w, (withFuel (n + 1)).apply (.primitive p) (is.map .int) w = .value (.int i) w) ∧
    ∀ j : Int64, j.toInt ≡ z [ZMOD 2 ^ 64] ↔ j = i

theorem gives_of_compute {n : Nat} {p : Primitive} {f : List Int64 → Int64} {is : List Int64} {z : ℤ}
    (hp : (withFuel (n + 1)).apply (.primitive p) (is.map .int) = Arithmetic.compute f (is.map .int))
    (hz : f is = .ofInt z) : Gives n p is z := by
  refine ⟨.ofInt z, fun w => ?_, fun j => word_modEq_iff⟩
  rw [hp, Arithmetic.compute_map_int, hz]
  rfl

theorem gives_sum (n : Nat) (is : List Int64) : Gives n .add is (is.map Int64.toInt).sum :=
  gives_of_compute (by rw [apply_add]) (Arithmetic.sum_eq_ofInt is)

theorem gives_product (n : Nat) (is : List Int64) : Gives n .multiply is (is.map Int64.toInt).prod :=
  gives_of_compute (by rw [apply_multiply]) (Arithmetic.product_eq_ofInt is)

theorem gives_negation (n : Nat) (i : Int64) : Gives n .subtract [i] (-i.toInt) := by
  refine gives_of_compute (apply_subtract n (List.cons_ne_nil _ _)) ?_
  rw [Int64.ofInt_neg, Int64.ofInt_toInt, Arithmetic.difference]

theorem gives_difference (n : Nat) (i j : Int64) (is : List Int64) :
    Gives n .subtract (i :: j :: is) (i.toInt - ((j :: is).map Int64.toInt).sum) :=
  gives_of_compute (apply_subtract n (List.cons_ne_nil _ _)) (Arithmetic.foldl_sub_eq i (j :: is))

theorem apply_arithmetic_eq_failure_iff (n : Nat) {p : Primitive} (hp : p ∈ [.add, .multiply, .subtract])
    (vs : List Value) (w : World) :
    (withFuel (n + 1)).apply (.primitive p) vs w = .failure (.typeMismatch .integer) w ↔
      ∃ v ∈ vs, ∀ i, v ≠ .int i := by
  simp only [List.mem_cons, List.not_mem_nil, or_false] at hp
  rcases hp with rfl | rfl | rfl
  · rw [apply_add]
    exact Arithmetic.compute_eq_failure_iff
  · rw [apply_multiply]
    exact Arithmetic.compute_eq_failure_iff
  · cases vs with
    | nil => simp [apply_subtract_nil]
    | cons v vs =>
      rw [apply_subtract n (List.cons_ne_nil v vs)]
      exact Arithmetic.compute_eq_failure_iff

theorem apply_regrouped (n : Nat) {p : Primitive} (hp : p ∈ [.add, .multiply]) :
    (∀ vs us : List Value, vs.Perm us →
      (withFuel (n + 1)).apply (.primitive p) vs = (withFuel (n + 1)).apply (.primitive p) us) ∧
    ∀ parts : List Grouping, (Grouping.call parts).run ((withFuel (n + 1)).apply (.primitive p)) =
      (withFuel (n + 1)).apply (.primitive p) (Grouping.flatParts parts) := by
  simp only [List.mem_cons, List.not_mem_nil, or_false] at hp
  rcases hp with rfl | rfl
  · rw [apply_add]
    exact ⟨fun _ _ => Arithmetic.compute_perm fun _ _ => Arithmetic.sum_perm, Grouping.run_call Arithmetic.groups_sum⟩
  · rw [apply_multiply]
    exact ⟨fun _ _ => Arithmetic.compute_perm fun _ _ => Arithmetic.product_perm,
      Grouping.run_call Arithmetic.groups_product⟩

/-- Arithmetic refuses arguments that are not integers, and is otherwise exact modulo 2^64. -/
theorem arithmetic_exact (n : Nat) :
    (∀ p ∈ [Primitive.add, .multiply, .subtract], ∀ (vs : List Value) (w : World),
      (withFuel (n + 1)).apply (.primitive p) vs w = .failure (.typeMismatch .integer) w ↔
        ∃ v ∈ vs, ∀ i, v ≠ .int i) ∧
    (∀ w, (withFuel (n + 1)).apply (.primitive .subtract) [] w =
      .failure (.wrongArgumentCount "-" (.atLeast 1) 0) w) ∧
    (∀ is, Gives n .add is (is.map Int64.toInt).sum) ∧
    (∀ is, Gives n .multiply is (is.map Int64.toInt).prod) ∧
    (∀ i, Gives n .subtract [i] (-i.toInt)) ∧
    (∀ i j is, Gives n .subtract (i :: j :: is) (i.toInt - ((j :: is).map Int64.toInt).sum)) ∧
    ∀ p ∈ [Primitive.add, .multiply],
      (∀ vs us : List Value, vs.Perm us →
        (withFuel (n + 1)).apply (.primitive p) vs = (withFuel (n + 1)).apply (.primitive p) us) ∧
      ∀ parts : List Grouping, (Grouping.call parts).run ((withFuel (n + 1)).apply (.primitive p)) =
        (withFuel (n + 1)).apply (.primitive p) (Grouping.flatParts parts) :=
  ⟨fun _ => apply_arithmetic_eq_failure_iff n, apply_subtract_nil n, gives_sum n, gives_product n, gives_negation n,
    gives_difference n, fun _ => apply_regrouped n⟩

theorem arithmetic_exact_limits :
    (Grouping.call [.value (.int Int64.minValue), .call [.value (.int (-1)), .value (.int (-1))]]).run
        ((withFuel 1).apply (.primitive .multiply)) World.empty = .value (.int Int64.minValue) World.empty ∧
      (withFuel 1).apply (.primitive .multiply) [.int (-1), .int Int64.minValue, .int (-1)] World.empty =
        .value (.int Int64.minValue) World.empty ∧
      Gives 0 .subtract [Int64.minValue] (2 ^ 63) ∧
      (withFuel 1).apply (.primitive .add) [.int 1, .nil] World.empty =
        .failure (.typeMismatch .integer) World.empty := by
  obtain ⟨hfail, -, -, -, hneg, -, hgroup⟩ := arithmetic_exact 0
  obtain ⟨hperm, hcalls⟩ := hgroup .multiply (by decide)
  refine ⟨?_, ?_, ?_, ?_⟩
  · rw [hcalls]
    rfl
  · rw [hperm _ [.int Int64.minValue, .int (-1), .int (-1)] (.swap _ _ _)]
    rfl
  · exact hneg Int64.minValue
  · exact (hfail .add (by decide) _ _).mpr ⟨.nil, by simp, nofun⟩

end Kernel
end LazyLisp
