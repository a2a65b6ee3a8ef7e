import LazyLisp.Evaluation
import LazyLisp.Proofs.Alike

namespace LazyLisp

/-- Holds as soon as there is enough fuel, in the evaluator and for the comparison. -/
def Amply (p : Kernel → Nat → Prop) : Prop := ∃ n, ∀ k : Kernel, n ≤ k.fuel → ∀ m, n ≤ m → p k m

namespace Amply

variable {p q : Kernel → Nat → Prop}

theorem and (hp : Amply p) (hq : Amply q) : Amply fun k m => p k m ∧ q k m := by
  obtain ⟨n, hn⟩ := hp
  obtain ⟨n', hn'⟩ := hq
  exact ⟨max n n', fun k hk m hm => ⟨hn k (by omega) m (by omega), hn' k (by omega) m (by omega)⟩⟩

theorem imp (hp : Amply p) (h : ∀ k m, p k m → q k m) : Amply q := by
  obtain ⟨n, hn⟩ := hp
  exact ⟨n, fun k hk m hm => h k m (hn k hk m hm)⟩

theorem of_forall (h : ∀ k m, p k m) : Amply p := ⟨0, fun k _ m _ => h k m⟩

theorem atFuel (hp : Amply p) : Amply fun k _ => p k k.fuel := by
  obtain ⟨n, hn⟩ := hp
  exact ⟨n, fun k hk _ _ => hn k hk k.fuel hk⟩

theorem succ (h : Amply fun k m => p k (m + 1)) : Amply p := by
  obtain ⟨n, hn⟩ := h
  refine ⟨n + 1, fun k hk m hm => ?_⟩
  obtain ⟨m, rfl⟩ : ∃ l, m = l + 1 := ⟨m - 1, by omega⟩
  exact hn k (by omega) m (by omega)

theorem forall_mem {α : Type} {xs : List α} {p : α → Kernel → Nat → Prop}
    (h : ∀ x ∈ xs, Amply (p x)) : Amply fun k m => ∀ x ∈ xs, p x k m := by
  induction xs with
  | nil => exact of_forall fun _ _ _ hx => by cases hx
  | cons x xs ih =>
    have hx := h x (by simp)
    have hxs := ih fun y hy => h y (by simp [hy])
    refine (hx.and hxs).imp fun k m hkm y hy => ?_
    rcases List.mem_cons.mp hy with rfl | hy
    · exact hkm.1
    · exact hkm.2 y hy

end Amply

theorem Kernel.equal_sequence (k : Kernel) (n : Nat) {a b : Value} (ha : a.isSequential = true)
    (hb : b.isSequential = true) : k.equal (n + 1) a b = k.equalElements (k.equal n) k.fuel a b := by
  rw [equal.eq_def]
  exact if_pos (by rw [ha, hb]; rfl)

theorem Kernel.equal_of_kind_ne (k : Kernel) (n : Nat) {a b : Value} (h : a.kind ≠ b.kind) :
    k.equal (n + 1) a b = pure false := by
  cases a <;> cases b <;> first | rfl | exact absurd rfl h

theorem Eval.bind_of_value {α β : Type} {m : Eval α} {f : α → Eval β} {w v : World} {a : α}
    (h : m w = .value a v) : (m >>= f) w = f a v := by
  rw [bind_apply, h]

section Decision

open Classical

def Decided (w : World) (a b : Value) : Prop :=
  Amply fun k m => k.equal m a b w = .value (decide (Alike w a b)) w

variable {w : World} {a b : Value} {xs ys : List Value} {es fs : List (Value × Value)}

theorem decided_of_kind_ne (h : a.kind ≠ b.kind) : Decided w a b := by
  refine .succ (.of_forall fun k m => ?_)
  have hn : ¬ Alike w a b := fun hab => h hab.kind_eq
  rw [k.equal_of_kind_ne m h, decide_eq_false hn]
  rfl

theorem decided_atom (x y : Atom) : Decided w (.atom x) (.atom y) := by
  refine .succ (.of_forall fun k m => ?_)
  simp only [Alike.atom_iff]
  change Outcome.value (decide (x = y)) w = _
  congr

theorem decided_callable (i j : Nat) (f g : Callable Value) :
    Decided w (.callable i f) (.callable j g) := by
  refine .succ (.of_forall fun k m => ?_)
  simp only [Alike.callable_iff]
  change Outcome.value (decide (i = j)) w = _
  congr

theorem AtHand.amply_uncons {v : Value} {r : Option (Value × Value)} (h : AtHand w v r) :
    Amply fun k _ => k.uncons k.fuel v w = .value r w := by
  obtain ⟨n, hn⟩ := h.uncons
  exact ⟨n, fun k hk _ _ => hn k k.fuel hk⟩

theorem equalElements_of_end {x? y? : Option (Value × Value)} (hx : AtHand w a x?) (hy : AtHand w b y?)
    (hend : x? = none ∨ y? = none) :
    Amply fun k m => ∀ eq : Value → Value → Eval Bool,
      k.equalElements eq (m + 1) a b w = .value (x?.isNone && y?.isNone) w := by
  refine (hx.amply_uncons.and hy.amply_uncons).imp fun k m h eq => ?_
  rw [Kernel.equalElements, Eval.bind_of_value h.1, Eval.bind_of_value h.2]
  rcases hend with rfl | rfl
  · cases y? <;> rfl
  · cases x? <;> rfl

theorem equalElements_eq (hxs : Elements w a xs) (hys : Elements w b ys) :
    Amply fun k m => ∀ eq : Value → Value → Eval Bool,
      (∀ x ∈ xs, ∀ y ∈ ys, eq x y w = .value (decide (Alike w x y)) w) →
      k.equalElements eq m a b w = .value (decide (List.Forall₂ (Alike w) xs ys)) w := by
  induction hxs generalizing b ys with
  | nil hx =>
    cases hys with
    | nil hy =>
      refine .succ ((equalElements_of_end hx hy (.inl rfl)).imp fun k m h eq _ => (h eq).trans ?_)
      simp
    | cons hy _ =>
      refine .succ ((equalElements_of_end hx hy (.inl rfl)).imp fun k m h eq _ => (h eq).trans ?_)
      simp
  | @cons a x u xs hx _ ih =>
    cases hys with
    | nil hy =>
      refine .succ ((equalElements_of_end hx hy (.inr rfl)).imp fun k m h eq _ => (h eq).trans ?_)
      simp
    | @cons b y v ys hy hys =>
      refine .succ (((hx.amply_uncons.and hy.amply_uncons).and (ih hys)).imp fun k m h eq heq => ?_)
      rw [Kernel.equalElements, Eval.bind_of_value h.1.1, Eval.bind_of_value h.1.2]
      dsimp only
      rw [Eval.bind_of_value (heq x (by simp) y (by simp))]
      by_cases hxy : Alike w x y
      · simp only [hxy, decide_true, if_true]
        rw [h.2 eq fun x hx y hy => heq x (by simp [hx]) y (by simp [hy])]
        simp [hxy]
      · simp [hxy, Eval.pure_apply]

theorem decided_sequence (ha : a.isSequential = true) (hb : b.isSequential = true)
    (hxs : Elements w a xs) (hys : Elements w b ys) (h : ∀ x ∈ xs, ∀ y ∈ ys, Decided w x y) :
    Decided w a b := by
  have hitems : Amply fun k m => ∀ x ∈ xs, ∀ y ∈ ys,
      k.equal m x y w = .value (decide (Alike w x y)) w :=
    .forall_mem fun x hx => .forall_mem fun y hy => h x hx y hy
  refine .succ (((equalElements_eq hxs hys).atFuel.and hitems).imp fun k m hkm => ?_)
  rw [k.equal_sequence m ha hb, hkm.1 _ hkm.2]
  simp only [Alike.sequence_iff ha hb hxs hys]

theorem findEntry_eq {same : Value → Eval Bool} {p : Value → Prop}
    (h : ∀ e ∈ es, same e.1 w = .value (decide (p e.1)) w) :
    Kernel.findEntry same es w = .value ((es.find? fun e => decide (p e.1)).map Prod.snd) w := by
  induction es with
  | nil => rfl
  | cons e es ih =>
    obtain ⟨key, value⟩ := e
    rw [Kernel.findEntry, Eval.bind_of_value (h (key, value) (by simp))]
    by_cases hp : p key
    · simp [hp, Eval.pure_apply]
    · simp only [hp, decide_false, Bool.false_eq_true, if_false, List.find?_cons_of_neg,
        not_false_eq_true]
      exact ih fun e he => h e (by simp [he])

theorem find?_alike_iff (hd : fs.Pairwise fun d e => ¬ Alike w d.1 e.1) {key : Value}
    {f : Value × Value} :
    (fs.find? fun f => decide (Alike w f.1 key)) = some f ↔ f ∈ fs ∧ Alike w f.1 key := by
  have hone : fs.Pairwise fun d e =>
      decide (Alike w d.1 key) = true → decide (Alike w e.1 key) = false := by
    refine hd.imp fun {d e} hde hdk => decide_eq_false fun hek => hde ?_
    exact (of_decide_eq_true hdk).trans hek.symm
  rw [find?_eq_some_iff_of_pairwise hone, decide_eq_true_iff]

theorem orFalse_of_value {m : Eval Bool} {r : Bool} (h : m w = .value r w) :
    Eval.orFalse m w = .value r w := by
  rw [Eval.orFalse, h]

theorem equalEntries_eq {eq : Value → Value → Eval Bool}
    (hd : fs.Pairwise fun d e => ¬ Alike w d.1 e.1)
    (hk : ∀ e ∈ es, ∀ f ∈ fs, eq f.1 e.1 w = .value (decide (Alike w f.1 e.1)) w)
    (hv : ∀ e ∈ es, ∀ f ∈ fs, eq e.2 f.2 w = .value (decide (Alike w e.2 f.2)) w) :
    Kernel.equalEntries eq fs es w = .value (decide (∀ e ∈ es, Alike.Matched w fs e)) w := by
  induction es with
  | nil => simp [Kernel.equalEntries, Eval.pure_apply]
  | cons e es ih =>
    obtain ⟨key, value⟩ := e
    have hfind : Kernel.findEntry (fun key' => .orFalse (eq key' key)) fs w =
        .value ((fs.find? fun f => decide (Alike w f.1 key)).map Prod.snd) w :=
      findEntry_eq (p := fun v => Alike w v key) fun f hf =>
        orFalse_of_value (hk (key, value) (by simp) f hf)
    rw [Kernel.equalEntries, Eval.bind_of_value hfind]
    cases hf : fs.find? fun f => decide (Alike w f.1 key) with
    | none =>
      have hn : ¬ Alike.Matched w fs (key, value) := by
        rintro ⟨f, hm, ha, -⟩
        exact List.find?_eq_none.mp hf f hm (by simpa using ha.symm)
      simp [hn, Eval.pure_apply]
    | some f =>
      obtain ⟨hm, ha⟩ := (find?_alike_iff hd).mp hf
      have hone : Alike.Matched w fs (key, value) ↔ Alike w value f.2 := by
        constructor
        · rintro ⟨g, hg, hgk, hgv⟩
          have := (find?_alike_iff hd).mpr ⟨hg, hgk.symm⟩
          rw [hf] at this
          cases this
          exact hgv
        · intro hfv
          exact ⟨f, hm, ha.symm, hfv⟩
      dsimp only [Option.map]
      rw [Eval.bind_of_value (hv (key, value) (by simp) f hm)]
      by_cases hfv : Alike w value f.2
      · simp only [hfv, decide_true, if_true]
        rw [ih (fun e he => hk e (by simp [he])) fun e he => hv e (by simp [he])]
        simp [hone, hfv]
      · simp [hone, hfv, Eval.pure_apply]

theorem decided_map (hd : es.Pairwise fun d e => ¬ Alike w d.1 e.1)
    (hd' : fs.Pairwise fun d e => ¬ Alike w d.1 e.1) (hk : ∀ e ∈ es, ∀ f ∈ fs, Decided w f.1 e.1)
    (hv : ∀ e ∈ es, ∀ f ∈ fs, Decided w e.2 f.2) : Decided w (.map es) (.map fs) := by
  have hkeys : Amply fun k m => ∀ e ∈ es, ∀ f ∈ fs,
      k.equal m f.1 e.1 w = .value (decide (Alike w f.1 e.1)) w :=
    .forall_mem fun e he => .forall_mem fun f hf => hk e he f hf
  have hvalues : Amply fun k m => ∀ e ∈ es, ∀ f ∈ fs,
      k.equal m e.2 f.2 w = .value (decide (Alike w e.2 f.2)) w :=
    .forall_mem fun e he => .forall_mem fun f hf => hv e he f hf
  refine .succ ((hkeys.and hvalues).imp fun k m hkm => ?_)
  change (if es.length = fs.length then Kernel.equalEntries (k.equal m) fs es else pure false) w = _
  simp only [Alike.map_iff_of_distinct hd]
  by_cases hlen : es.length = fs.length
  · rw [if_pos hlen, equalEntries_eq hd' hkm.1 hkm.2]
    simp only [hlen, true_and]
  · rw [if_neg hlen]
    simp [hlen, Eval.pure_apply]

end Decision

namespace Complete

variable {w : World} {a b : Value}

/-- Of the two sides one is taken apart, so both orders are needed: keys are compared the other way round
than values. -/
theorem decided_both (ha : Complete w (Alike w) a) :
    ∀ b, Complete w (Alike w) b → Decided w a b ∧ Decided w b a := by
  refine content_induction
    (motive := fun a => ∀ b, Complete w (Alike w) b → Decided w a b ∧ Decided w b a)
    ?atom ?callable ?sequence ?map ha
  case atom =>
    intro x b _
    cases b with
    | atom y => exact ⟨decided_atom x y, decided_atom y x⟩
    | _ => exact ⟨decided_of_kind_ne nofun, decided_of_kind_ne nofun⟩
  case callable =>
    intro i f b _
    cases b with
    | callable j g => exact ⟨decided_callable i j f g, decided_callable j i g f⟩
    | _ => exact ⟨decided_of_kind_ne nofun, decided_of_kind_ne nofun⟩
  case sequence =>
    intro v xs hs he ih b hb
    by_cases hk : b.isSequential = true
    · obtain ⟨ys, hys, hy⟩ := hb.elements
      exact ⟨decided_sequence hs hk he hys fun x hx y hm => (ih x hx y (hy y hm)).1,
        decided_sequence hk hs hys he fun y hm x hx => (ih x hx y (hy y hm)).2⟩
    · have hkind : v.kind ≠ b.kind := by
        rw [Value.kind_eq_sequence hs]
        cases b <;> first | exact absurd rfl hk | exact nofun
      exact ⟨decided_of_kind_ne hkind, decided_of_kind_ne hkind.symm⟩
  case map =>
    intro es hd ihk ihv b hb
    cases hb with
    | @map fs hd' hk hv =>
      exact ⟨decided_map hd hd' (fun e he f hf => (ihk e he f.1 (hk f hf)).2)
          fun e he f hf => (ihv e he f.2 (hv f hf)).1,
        decided_map hd' hd (fun f hf e he => (ihk e he f.1 (hk f hf)).1)
          fun f hf e he => (ihv e he f.2 (hv f hf)).2⟩
    | _ => exact ⟨decided_of_kind_ne nofun, decided_of_kind_ne nofun⟩

theorem decided (ha : Complete w (Alike w) a) (hb : Complete w (Alike w) b) : Decided w a b :=
  (ha.decided_both b hb).1

end Complete

def Answers (w : World) (a b : Value) (answer : Bool) : Prop :=
  ∃ n, ∀ m, n ≤ m → (Kernel.withFuel m).isEqual a b w = .value answer w

abbrev Equal (w : World) (a b : Value) : Prop := Answers w a b true

abbrev Unequal (w : World) (a b : Value) : Prop := Answers w a b false

theorem Kernel.fuel_withFuel (n : Nat) : (withFuel n).fuel = n := by cases n <;> rfl

section Equality

variable {w : World} {a b c : Value} {answer : Bool}

theorem Amply.withFuel {p : Kernel → Nat → Prop} (h : Amply p) :
    ∃ n, ∀ m, n ≤ m → p (.withFuel m) m := by
  obtain ⟨n, hn⟩ := h
  exact ⟨n, fun m hm => hn (.withFuel m) (by rwa [Kernel.fuel_withFuel]) m hm⟩

open Classical in
theorem Decided.answers (h : Decided w a b) : Answers w a b (decide (Alike w a b)) := by
  obtain ⟨n, hn⟩ := h.withFuel
  refine ⟨n, fun m hm => ?_⟩
  rw [Kernel.isEqual, Kernel.fuel_withFuel]
  exact hn m hm

theorem Answers.unique {answer' : Bool} (h : Answers w a b answer) (h' : Answers w a b answer') :
    answer = answer' := by
  obtain ⟨n, hn⟩ := h
  obtain ⟨n', hn'⟩ := h'
  have he := hn (max n n') (by omega)
  rw [hn' (max n n') (by omega)] at he
  cases he
  rfl

theorem Decided.equal_iff (h : Decided w a b) : Equal w a b ↔ Alike w a b := by
  classical
  constructor
  · intro he
    exact of_decide_eq_true (h.answers.unique he)
  · intro ha
    have hanswer := h.answers
    rwa [decide_eq_true ha] at hanswer

theorem Decided.equal_or_unequal (h : Decided w a b) : Equal w a b ∨ Unequal w a b := by
  classical
  have hanswer := h.answers
  cases hd : decide (Alike w a b) with
  | true => exact .inl (by rwa [hd] at hanswer)
  | false => exact .inr (by rwa [hd] at hanswer)

theorem Complete.of_equal (h : Complete w (Equal w) a) : Complete w (Alike w) a :=
  h.transfer id fun _ _ ha hb hab => (ha.decided hb).equal_iff.mpr hab

theorem Complete.of_alike (h : Complete w (Alike w) a) : Complete w (Equal w) a :=
  h.transfer id fun ha hb _ _ hab => (ha.decided hb).equal_iff.mp hab

theorem Complete.equal_iff (ha : Complete w (Equal w) a) (hb : Complete w (Equal w) b) :
    Equal w a b ↔ Alike w a b :=
  (ha.of_equal.decided hb.of_equal).equal_iff

theorem foldSeq_elements {v : Value} {xs : List Value} (h : Elements w v xs) :
    Amply fun k m => ∀ reversed : List Value,
      k.foldSeq (fun xs x => pure (x :: xs)) m reversed v w = .value (xs.reverse ++ reversed) w := by
  induction h with
  | nil hn =>
    refine .succ (hn.amply_uncons.imp fun k m h reversed => ?_)
    rw [Kernel.foldSeq, Eval.bind_of_value h]
    rfl
  | cons hc _ ih =>
    refine .succ ((hc.amply_uncons.and ih).imp fun k m h reversed => ?_)
    rw [Kernel.foldSeq, Eval.bind_of_value h.1]
    refine (h.2 _).trans ?_
    simp

theorem elements_eq {v : Value} {xs : List Value} (h : Elements w v xs) :
    ∃ n, ∀ m, n ≤ m → (Kernel.withFuel m).elements v w = .value xs w := by
  obtain ⟨n, hn⟩ := (foldSeq_elements h).withFuel
  refine ⟨n, fun m hm => ?_⟩
  rw [Kernel.elements, Kernel.fuel_withFuel, Eval.bind_of_value (hn m hm [])]
  simp [Eval.pure_apply]

open Classical in
theorem getEntry_eq {es : List (Value × Value)} {key : Value} (h : ∀ e ∈ es, Decided w e.1 key) :
    ∃ n, ∀ m, n ≤ m → (Kernel.withFuel m).getEntry es key w =
      .value ((es.find? fun e => decide (Alike w e.1 key)).map Prod.snd) w := by
  obtain ⟨n, hn⟩ := (Amply.forall_mem h).withFuel
  refine ⟨n, fun m hm => findEntry_eq (p := fun v => Alike w v key) fun e he => ?_⟩
  refine orFalse_of_value ?_
  rw [Kernel.isEqual, Kernel.fuel_withFuel]
  exact hn m hm e he

theorem equal_sequence_iff (ha : Complete w (Equal w) a) (hb : Complete w (Equal w) b)
    (hsa : a.isSequential = true) (hsb : b.isSequential = true) :
    ∃ (xs ys : List Value) (n : Nat),
      (∀ m, n ≤ m → (Kernel.withFuel m).elements a w = .value xs w ∧
        (Kernel.withFuel m).elements b w = .value ys w) ∧
      (Equal w a b ↔ List.Forall₂ (Equal w) xs ys) := by
  obtain ⟨xs, hxs, hcx⟩ := ha.elements
  obtain ⟨ys, hys, hcy⟩ := hb.elements
  obtain ⟨n, hn⟩ := elements_eq hxs
  obtain ⟨n', hn'⟩ := elements_eq hys
  refine ⟨xs, ys, max n n', fun m hm => ⟨hn m (by omega), hn' m (by omega)⟩, ?_⟩
  rw [ha.equal_iff hb, Alike.sequence_iff hsa hsb hxs hys]
  exact forall₂_congr_of_mem fun x hx y hy => ((hcx x hx).equal_iff (hcy y hy)).symm

theorem equal_map_iff {es fs : List (Value × Value)} (he : Complete w (Equal w) (.map es))
    (hf : Complete w (Equal w) (.map fs)) :
    Equal w (.map es) (.map fs) ↔ ∃ gs : List (Value × Value), gs.Perm fs ∧
      List.Forall₂ (fun e g => Equal w e.1 g.1 ∧ Equal w e.2 g.2) es gs := by
  rw [he.equal_iff hf, Alike.map_iff]
  cases he with
  | map _ hek hev =>
  cases hf with
  | map _ hfk hfv =>
  refine exists_congr fun gs => and_congr_right fun hp => forall₂_congr_of_mem fun e he g hg => ?_
  have hg : g ∈ fs := hp.mem_iff.mp hg
  rw [(hek e he).equal_iff (hfk g hg), (hev e he).equal_iff (hfv g hg)]

theorem getEntry_of_equal {es : List (Value × Value)} (hes : Complete w (Equal w) (.map es))
    (ha : Complete w (Equal w) a) (hb : Complete w (Equal w) b) (hab : Equal w a b) :
    ∃ (found : Option Value) (n : Nat),
      (∀ m, n ≤ m → (Kernel.withFuel m).getEntry es a w = .value found w ∧
        (Kernel.withFuel m).getEntry es b w = .value found w) ∧
      ∀ v, found = some v ↔ ∃ e ∈ es, Equal w e.1 a ∧ e.2 = v := by
  classical
  have hd : es.Pairwise fun d e => ¬ Alike w d.1 e.1 := by
    cases hes.of_equal with
    | map hd _ _ => exact hd
  cases hes with
  | map _ hk _ =>
  rw [ha.equal_iff hb] at hab
  obtain ⟨n, hn⟩ := getEntry_eq fun e he => (hk e he).of_equal.decided ha.of_equal
  obtain ⟨n', hn'⟩ := getEntry_eq fun e he => (hk e he).of_equal.decided hb.of_equal
  have hsame : (fun e : Value × Value => decide (Alike w e.1 b)) = fun e => decide (Alike w e.1 a) := by
    funext e
    exact decide_eq_decide.mpr ⟨fun h => h.trans hab.symm, fun h => h.trans hab⟩
  rw [hsame] at hn'
  refine ⟨_, max n n', fun m hm => ⟨hn m (by omega), hn' m (by omega)⟩, fun v => ?_⟩
  rw [Option.map_eq_some_iff]
  refine exists_congr fun e => ?_
  rw [find?_alike_iff hd, and_assoc]
  exact and_congr_right fun he => by rw [(hk e he).equal_iff ha]

/-- On finite values equality gives an answer and changes nothing. It is an equivalence. Callables are
equal if they have one identity, sequences if their elements are, whatever their kinds, and maps if
their entries are in some order. The value that a map has under a key is the one under an equal key. -/
theorem isEqual_equivalence (w : World) :
    (∀ a b, Complete w (Equal w) a → Complete w (Equal w) b → Equal w a b ∨ Unequal w a b) ∧
    (∀ a, Complete w (Equal w) a → Equal w a a) ∧
    (∀ a b, Complete w (Equal w) a → Complete w (Equal w) b → Equal w a b → Equal w b a) ∧
    (∀ a b c, Complete w (Equal w) a → Complete w (Equal w) b → Complete w (Equal w) c →
      Equal w a b → Equal w b c → Equal w a c) ∧
    (∀ x y, Equal w (.atom x) (.atom y) ↔ x = y) ∧
    (∀ i j f g, Equal w (.callable i f) (.callable j g) ↔ i = j) ∧
    (∀ a b, Complete w (Equal w) a → Complete w (Equal w) b →
      a.isSequential = true → b.isSequential = true →
      ∃ (xs ys : List Value) (n : Nat),
        (∀ m, n ≤ m → (Kernel.withFuel m).elements a w = .value xs w ∧
          (Kernel.withFuel m).elements b w = .value ys w) ∧
        (Equal w a b ↔ List.Forall₂ (Equal w) xs ys)) ∧
    (∀ es fs, Complete w (Equal w) (.map es) → Complete w (Equal w) (.map fs) →
      (Equal w (.map es) (.map fs) ↔ ∃ gs : List (Value × Value), gs.Perm fs ∧
        List.Forall₂ (fun e g => Equal w e.1 g.1 ∧ Equal w e.2 g.2) es gs)) ∧
    ∀ es a b, Complete w (Equal w) (.map es) → Complete w (Equal w) a → Complete w (Equal w) b →
      Equal w a b → ∃ (found : Option Value) (n : Nat),
        (∀ m, n ≤ m → (Kernel.withFuel m).getEntry es a w = .value found w ∧
          (Kernel.withFuel m).getEntry es b w = .value found w) ∧
        ∀ v, found = some v ↔ ∃ e ∈ es, Equal w e.1 a ∧ e.2 = v := by
  refine ⟨fun a b ha hb => ?_, fun a ha => ?_, fun a b ha hb hab => ?_, fun a b c ha hb hc hab hbc => ?_,
    fun x y => ?_, fun i j f g => ?_, fun a b => equal_sequence_iff, fun es fs => equal_map_iff,
    fun es a b => getEntry_of_equal⟩
  · exact (ha.of_equal.decided hb.of_equal).equal_or_unequal
  · exact (ha.equal_iff ha).mpr ha.alike_refl
  · rw [ha.equal_iff hb] at hab
    exact (hb.equal_iff ha).mpr hab.symm
  · rw [ha.equal_iff hb] at hab
    rw [hb.equal_iff hc] at hbc
    exact (ha.equal_iff hc).mpr (hab.trans hbc)
  · rw [(decided_atom x y).equal_iff, Alike.atom_iff]
  · rw [(decided_callable i j f g).equal_iff, Alike.callable_iff]

def oneElementWorld : World :=
  { World.empty with
    cells := #[⟨0, .realized (.cons (.int 1) (.lazy 1))⟩, ⟨0, .realized (.list [])⟩] }

def laterMap : List (Value × Value) := [(.keyword ":k", .lazy 0), (.vector [.int 2], .nil)]

def earlierMap : List (Value × Value) := [(.list [.int 2], .nil), (.keyword ":k", .vector [.int 1])]

theorem isEqual_equivalence_reordered :
    Complete oneElementWorld (Equal oneElementWorld) (.map laterMap) ∧
      Complete oneElementWorld (Equal oneElementWorld) (.map earlierMap) ∧
      Equal oneElementWorld (.map laterMap) (.map earlierMap) ∧
      Equal oneElementWorld (.map earlierMap) (.map laterMap) ∧
      ∃ n, ∀ m, n ≤ m → (Kernel.withFuel m).getEntry laterMap (.list [.int 2]) oneElementWorld =
        .value (some .nil) oneElementWorld := by
  let w := oneElementWorld
  obtain ⟨-, hrefl, hsymm, -, -, -, hseq, hmap, hget⟩ := isEqual_equivalence w
  have hne {x y : Value} (hk : x.kind ≠ y.kind) : ¬ Equal w x y := by
    rintro ⟨n, hn⟩
    have h := hn (n + 1) (by omega)
    rw [Kernel.isEqual, Kernel.fuel_withFuel, Kernel.equal_of_kind_ne _ _ hk] at h
    cases h
  have hone (i : Int64) : ∀ x ∈ [Value.int i], Complete w (Equal w) x :=
    List.forall_mem_singleton.mpr (.atom _)
  have hlazy : Complete w (Equal w) (.lazy 0) := .lazy rfl (.cons (.atom _) (.lazy rfl (.list nofun)))
  have hl : Complete w (Equal w) (.map laterMap) := by
    refine .map (List.pairwise_pair.mpr (hne nofun)) ?_ ?_
    · exact List.forall_mem_cons.mpr ⟨.atom _, List.forall_mem_singleton.mpr (.vector (hone 2))⟩
    · exact List.forall_mem_cons.mpr ⟨hlazy, List.forall_mem_singleton.mpr (.atom _)⟩
  have he : Complete w (Equal w) (.map earlierMap) := by
    refine .map (List.pairwise_pair.mpr (hne nofun)) ?_ ?_
    · exact List.forall_mem_cons.mpr ⟨.list (hone 2), List.forall_mem_singleton.mpr (.atom _)⟩
    · exact List.forall_mem_cons.mpr ⟨.atom _, List.forall_mem_singleton.mpr (.vector (hone 1))⟩
  have hsingle {i : Int64} {x y : Value} (hx : Complete w (Equal w) x) (hy : Complete w (Equal w) y)
      (hsx : x.isSequential = true) (hsy : y.isSequential = true) (hex : Elements w x [.int i])
      (hey : Elements w y [.int i]) : Equal w x y := by
    obtain ⟨xs, ys, n, hn, hiff⟩ := hseq x y hx hy hsx hsy
    obtain ⟨n₁, hn₁⟩ := elements_eq hex
    obtain ⟨n₂, hn₂⟩ := elements_eq hey
    have h := hn (n + n₁ + n₂) (by omega)
    rw [hn₁ _ (by omega), hn₂ _ (by omega)] at h
    obtain ⟨h₁, h₂⟩ := h
    cases h₁
    cases h₂
    exact hiff.mpr (.cons (hrefl _ (.atom _)) .nil)
  have htwo : Equal w (.vector [.int 2]) (.list [.int 2]) :=
    hsingle (.vector (hone 2)) (.list (hone 2)) rfl rfl (.vector _) (.list _)
  have hequal : Equal w (.map laterMap) (.map earlierMap) := by
    refine (hmap _ _ hl he).mpr ⟨earlierMap.reverse, List.reverse_perm _, ?_⟩
    have hvalue : Equal w (.lazy 0) (.vector [.int 1]) :=
      hsingle hlazy (.vector (hone 1)) rfl rfl (.lazy rfl (.consCell (.lazy rfl (.list _)))) (.vector _)
    exact .cons ⟨hrefl _ (.atom _), hvalue⟩ (.cons ⟨htwo, hrefl _ (.atom _)⟩ .nil)
  refine ⟨hl, he, hequal, hsymm _ _ hl he hequal, ?_⟩
  obtain ⟨found, n, hn, hfound⟩ := hget laterMap _ _ hl (.vector (hone 2)) (.list (hone 2)) htwo
  obtain rfl : found = some .nil :=
    (hfound .nil).mpr ⟨_, List.mem_cons_of_mem _ (.head _), hrefl _ (.vector (hone 2)), rfl⟩
  exact ⟨n, fun m hm => (hn m hm).2⟩

end Equality

end LazyLisp
