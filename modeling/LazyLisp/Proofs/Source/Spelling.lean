import LazyLisp.Proofs.Source.Lines

namespace LazyLisp

open Source

inductive Atom.Spells : Atom → List Char → Prop
  | written {a : Atom} : a.Readable → Spells a (a.text .readable)
  | single (c : Char) : Spells (.char c) ['\\', c]
  | unicode {es : List Char} {code : Nat} : es.length = 4 → Text.numberFrom? 16 0 es = some code →
      code.isValidChar → Spells (.char (Char.ofNat code)) ('\\' :: 'u' :: es)
  | octal {es : List Char} {code : Nat} : es.length = 3 → Text.numberFrom? 8 0 es = some code →
      code.isValidChar → Spells (.char (Char.ofNat code)) ('\\' :: 'o' :: es)
  | decimal (negative : Bool) {es : List Char} {m : Nat} : es ≠ [] → Text.numberFrom? 10 0 es = some m →
      Numeral.fits (Numeral.signed negative m) = true →
      Spells (.int (Int64.ofInt (Numeral.signed negative m))) (Context.signText negative ++ es)
  | hexadecimal (negative : Bool) {mark : Char} {es : List Char} {m : Nat} : mark = 'x' ∨ mark = 'X' →
      es ≠ [] → Text.numberFrom? 16 0 es = some m → Numeral.fits (Numeral.signed negative m) = true →
      Spells (.int (Int64.ofInt (Numeral.signed negative m)))
        (Context.signText negative ++ '0' :: mark :: es)
  | radix (negative : Bool) {mark : Char} {bs es : List Char} {base m : Nat} : mark = 'r' ∨ mark = 'R' →
      bs ≠ [] → Text.numberFrom? 10 0 bs = some base → 2 ≤ base → base ≤ 36 →
      es ≠ [] → Text.numberFrom? base 0 es = some m → Numeral.fits (Numeral.signed negative m) = true →
      Spells (.int (Int64.ofInt (Numeral.signed negative m)))
        (Context.signText negative ++ bs ++ mark :: es)

namespace Source.Context

variable {x : Context} {token cs ds : List Char} {l : Nat} {c : Char}

theorem isAlphanum_of_digitIn? {base : Nat} (h : (Text.digitIn? base c).isSome = true) :
    c.isAlphanum = true := by
  obtain ⟨d, hd⟩ := Option.isSome_iff_exists.mp h
  simp only [Text.digitIn?, Option.filter_eq_some_iff, Text.digitWeight?] at hd
  have hw := hd.1
  change (c.isUpper || c.isLower || c.isDigit) = true
  split at hw
  · next hc => simp [hc]
  · split at hw
    · next hc => simp [hc]
    · split at hw
      · next hc => simp [hc]
      · cases hw

theorem takesDigits_radixNumber (base : Nat) : TakesDigits .radixNumber base := by
  intro r n c hm hc
  rw [Reader.step, hm]
  exact if_pos (isAlphanum_of_digitIn? hc)

theorem rest_radixDigits (negative : Bool) {base m : Nat} {es : List Char} (hbase : 1 ≤ base)
    (hne : es ≠ []) (he : Text.numberFrom? base 0 es = some m)
    (hf : Numeral.fits (Numeral.signed negative m) = true) (hb : Text.AtBoundary ds)
    (token : List Char) (l : Nat) :
    (x.reader (.radixNumber (.counted negative base 0 0)) token (es ++ ds) l).rest =
      x.accept (.atom (.int (Int64.ofInt (Numeral.signed negative m)))) ds (lineAfter l es) := by
  rw [rest_digits (takesDigits_radixNumber base) hbase he hf,
    rest_pending (pending?_counted (.inr rfl) negative base m (by simp [hne])) hb]

theorem rest_hexMark (negative : Bool) (hc : c = 'x' ∨ c = 'X') :
    (x.reader (.number (.counted negative 10 0 1)) token (c :: cs) l).rest =
      (x.reader (.radixNumber (.counted negative 16 0 0)) (c :: token) cs (nextLine l c)).rest := by
  refine rest_more ?_
  rcases hc with rfl | rfl <;> cases negative <;> rfl

theorem magnitude_counted {base : Nat} (hl : 2 ≤ base) (hu : base ≤ 36) (negative : Bool) (k : Nat) :
    ¬ ((Numeral.counted negative 10 base k).magnitude < 2 ∨
        36 < (Numeral.counted negative 10 base k).magnitude) ∧
      (Numeral.counted negative 10 base k).magnitude.toInt.toNat = base := by
  have hall : ∀ b : Fin 37, ∀ negative : Bool, 2 ≤ b.val →
      ¬ ((Int64.ofInt (Numeral.signed negative b.val)).abs < 2 ∨
        36 < (Int64.ofInt (Numeral.signed negative b.val)).abs) ∧
      (Int64.ofInt (Numeral.signed negative b.val)).abs.toInt.toNat = b.val := by decide
  exact hall ⟨base, by omega⟩ negative hl

theorem rest_radixMark (negative : Bool) {base : Nat} (hc : c = 'r' ∨ c = 'R') (hl : 2 ≤ base)
    (hu : base ≤ 36) (k : Nat) :
    (x.reader (.number (.counted negative 10 base k)) token (c :: cs) l).rest =
      (x.reader (.radixNumber (.counted negative base 0 0)) (c :: token) cs (nextLine l c)).rest := by
  refine rest_more ?_
  obtain ⟨hm, hv⟩ := magnitude_counted hl hu negative k
  have hd : c.isDigit = false := by rcases hc with rfl | rfl <;> rfl
  have hp : c ≠ '.' := by rcases hc with rfl | rfl <;> decide
  change Reader.inNumber _ (.counted negative 10 base k) c = _
  rw [Reader.inNumber, if_neg (by simp [hd]), if_neg hp, if_pos hc, if_neg hm, hv,
    Numeral.inBase_eq_counted]
  rfl

theorem rest_hexadecimal (negative : Bool) {mark : Char} {es : List Char} {m : Nat}
    (hmark : mark = 'x' ∨ mark = 'X') (hne : es ≠ []) (he : Text.numberFrom? 16 0 es = some m)
    (hf : Numeral.fits (Numeral.signed negative m) = true) (hb : Text.AtBoundary ds) :
    (x.idle (signText negative ++ '0' :: mark :: es ++ ds) l).rest =
      x.accept (.atom (.int (Int64.ofInt (Numeral.signed negative m)))) ds
        (lineAfter l (signText negative ++ '0' :: mark :: es)) := by
  have hz : Numeral.fits (Numeral.signed negative 0) = true := by cases negative <;> decide
  have htext : signText negative ++ '0' :: mark :: es ++ ds =
      signText negative ++ ['0'] ++ mark :: (es ++ ds) := by simp
  rw [htext, rest_signedDigits negative (by simp) rfl hz]
  refine (rest_hexMark negative hmark).trans ?_
  rw [rest_radixDigits negative (by decide) hne he hf hb]
  simp

theorem rest_radix (negative : Bool) {mark : Char} {bs es : List Char} {base m : Nat}
    (hmark : mark = 'r' ∨ mark = 'R') (hbs : bs ≠ []) (hbase : Text.numberFrom? 10 0 bs = some base)
    (hl : 2 ≤ base) (hu : base ≤ 36) (hne : es ≠ []) (he : Text.numberFrom? base 0 es = some m)
    (hf : Numeral.fits (Numeral.signed negative m) = true) (hb : Text.AtBoundary ds) :
    (x.idle (signText negative ++ bs ++ mark :: es ++ ds) l).rest =
      x.accept (.atom (.int (Int64.ofInt (Numeral.signed negative m)))) ds
        (lineAfter l (signText negative ++ bs ++ mark :: es)) := by
  have hfb : Numeral.fits (Numeral.signed negative base) = true := by
    rw [Numeral.fits_iff]
    cases negative <;> simp only [Numeral.signed] <;> simp <;> omega
  have htext : signText negative ++ bs ++ mark :: es ++ ds =
      signText negative ++ bs ++ mark :: (es ++ ds) := by simp
  rw [htext, rest_signedDigits negative hbs hbase hfb, rest_radixMark negative hmark hl hu,
    rest_radixDigits negative (by omega) hne he hf hb]
  simp

theorem takeCode_append {radix : Nat} (invalid : Reason) {es : List Char} {m k : Nat}
    (he : Text.numberFrom? radix m es = some k) (ds : List Char) (l : Nat) :
    Cursor.takeCode radix invalid es.length m ⟨es ++ ds, none, l⟩ =
      .ok (k, ⟨ds, none, lineAfter l es⟩) := by
  induction es generalizing m l with
  | nil =>
    cases he
    rfl
  | cons c es ih =>
    rw [Text.numberFrom?] at he
    split at he
    · next d hd =>
      have ht : (⟨c :: (es ++ ds), none, l⟩ : Cursor).take? =
          some (c, ⟨es ++ ds, none, nextLine l c⟩) := rfl
      rw [List.cons_append, List.length_cons, Cursor.takeCode, ht]
      simp only [hd, Nat.mul_comm m radix]
      exact ih he _
    · cases he

theorem takeCoded_append {radix : Nat} (invalid : Reason) {es : List Char} {code : Nat}
    (he : Text.numberFrom? radix 0 es = some code) (hv : code.isValidChar) (ds : List Char) (l : Nat) :
    Cursor.takeCoded radix es.length invalid ⟨es ++ ds, none, l⟩ =
      .ok (Char.ofNat code, ⟨ds, none, lineAfter l es⟩) := by
  simp only [Cursor.takeCoded, takeCode_append invalid he, Cursor.charOfCode?, if_pos hv]

theorem atSeparator_of_numberFrom? {radix m k : Nat} {es : List Char} (hne : es ≠ [])
    (he : Text.numberFrom? radix m es = some k) (ds : List Char) (l : Nat) :
    (⟨es ++ ds, none, l⟩ : Cursor).atSeparator = false := by
  obtain ⟨c, cs, rfl⟩ := List.exists_cons_of_ne_nil hne
  rw [Text.numberFrom?] at he
  split at he
  · next d hd => exact not_separator_of_isAlphanum (isAlphanum_of_digitIn? (by rw [hd]; rfl))
  · cases he

theorem rest_codedChar {mark : Char} {radix : Nat} (invalid : Reason) {es : List Char} {code : Nat}
    (hmark : ∀ s, Cursor.takeLong mark s = Cursor.takeCoded radix es.length invalid s) (hne : es ≠ [])
    (he : Text.numberFrom? radix 0 es = some code) (hv : code.isValidChar) (hb : Text.AtBoundary ds) :
    (x.idle ('\\' :: mark :: (es ++ ds)) l).rest =
      x.accept (.atom (.char (Char.ofNat code))) ds (lineAfter l ('\\' :: mark :: es)) := by
  refine rest_charLiteral ?_
  rw [Cursor.takeCharLiteral_eq, if_neg (by simp [atSeparator_of_numberFrom? hne he]), hmark,
    takeCoded_append invalid he hv]
  exact if_pos (atSeparator_of_atBoundary hb _)

theorem rest_spelling {a : Atom} {w : List Char} (ha : a.Spells w) (hb : Text.AtBoundary ds) :
    (x.idle (w ++ ds) l).rest = x.accept (.atom a) ds (lineAfter l w) := by
  cases ha with
  | written ha => exact rest_atom ha hb
  | single c => exact rest_singleChar c hb
  | unicode hlen he hv =>
    refine rest_codedChar .invalidUnicode (fun s => ?_) (by rintro rfl; cases hlen) he hv hb
    rw [hlen]
    rfl
  | octal hlen he hv =>
    refine rest_codedChar .invalidOctal (fun s => ?_) (by rintro rfl; cases hlen) he hv hb
    rw [hlen]
    rfl
  | decimal negative hne he hf => exact rest_decimal negative hne he hf hb
  | hexadecimal negative hmark hne he hf => exact rest_hexadecimal negative hmark hne he hf hb
  | radix negative hmark hbs hbase hl hu hne he hf =>
    exact rest_radix negative hmark hbs hbase hl hu hne he hf hb

end Source.Context

end LazyLisp
