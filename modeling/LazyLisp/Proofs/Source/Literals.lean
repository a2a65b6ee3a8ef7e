import Mathlib.Data.Nat.Digits.Defs
import LazyLisp.Proofs.Source.Spelling

namespace LazyLisp

namespace Text

variable {base : Nat} {es : List Char} {c : Char}

def AtSeparator (ds : List Char) : Prop := ∀ c ∈ ds.head?, isSeparator c = true

def weight (base : Nat) (c : Char) : Nat := (digitIn? base c).getD 0

def positional (base : Nat) (es : List Char) : Nat := Nat.ofDigits base (es.map (weight base)).reverse

theorem digitIn?_eq_weight (h : (digitIn? base c).isSome = true) :
    digitIn? base c = some (weight base c) := by
  obtain ⟨d, hd⟩ := Option.isSome_iff_exists.mp h
  rw [weight, hd, Option.getD_some]

theorem positional_cons (base : Nat) (c : Char) (es : List Char) :
    positional base (c :: es) = positional base es + base ^ es.length * weight base c := by
  simp [positional, Nat.ofDigits_append]

theorem positional_concat (base : Nat) (es : List Char) (c : Char) :
    positional base (es ++ [c]) = base * positional base es + weight base c := by
  simp [positional, Nat.ofDigits_cons, Nat.add_comm]

theorem numberFrom?_eq_positional (h : ∀ c ∈ es, (digitIn? base c).isSome = true) (m : Nat) :
    numberFrom? base m es = some (base ^ es.length * m + positional base es) := by
  induction es generalizing m with
  | nil => simp [numberFrom?, positional]
  | cons c es ih =>
    rw [numberFrom?, digitIn?_eq_weight (h c (by simp))]
    refine (ih (fun d hd => h d (by simp [hd])) _).trans (congrArg some ?_)
    rw [positional_cons, List.length_cons]
    ring

theorem numberFrom?_zero (h : ∀ c ∈ es, (digitIn? base c).isSome = true) :
    numberFrom? base 0 es = some (positional base es) := by
  rw [numberFrom?_eq_positional h, Nat.mul_zero, Nat.zero_add]

end Text

namespace Source

inductive BaseMark
  | decimal
  | hexadecimal (upper : Bool)
  | radix (zeros base : Nat) (upper : Bool) (low : 2 ≤ base) (high : base ≤ 36)

namespace BaseMark

def base : BaseMark → Nat
  | decimal => 10
  | hexadecimal _ => 16
  | radix _ base _ _ _ => base

def text : BaseMark → List Char
  | decimal => []
  | hexadecimal upper => ['0', if upper then 'X' else 'x']
  | radix zeros base upper _ _ =>
    List.replicate zeros '0' ++ Nat.toDigits 10 base ++ [if upper then 'R' else 'r']

def mode : BaseMark → Numeral → Mode
  | decimal => .number
  | hexadecimal _ | radix .. => .radixNumber

theorem one_le_base (b : BaseMark) : 1 ≤ b.base := by
  cases b with
  | decimal => decide
  | hexadecimal upper => exact Nat.succ_pos 15
  | radix zeros base upper low high => exact Nat.le_of_succ_le low

theorem takesDigits (b : BaseMark) : Context.TakesDigits b.mode b.base := by
  cases b with
  | decimal => exact Context.takesDigits_number
  | hexadecimal upper => exact Context.takesDigits_radixNumber 16
  | radix zeros base upper low high => exact Context.takesDigits_radixNumber base

theorem mode_eq (b : BaseMark) : b.mode = .number ∨ b.mode = .radixNumber := by
  cases b with
  | decimal => exact .inl rfl
  | hexadecimal upper => exact .inr rfl
  | radix zeros base upper low high => exact .inr rfl

end BaseMark

structure IntegerLiteral where
  negative : Bool
  mark : BaseMark
  digits : List Char
  nonempty : digits ≠ []
  valid : ∀ c ∈ digits, (Text.digitIn? mark.base c).isSome = true

namespace IntegerLiteral

def spelling (i : IntegerLiteral) (es : List Char) : List Char :=
  Context.signText i.negative ++ i.mark.text ++ es

def valueOf (i : IntegerLiteral) (es : List Char) : Int :=
  Numeral.signed i.negative (Text.positional i.mark.base es)

def text (i : IntegerLiteral) : List Char := i.spelling i.digits

def value (i : IntegerLiteral) : Int := i.valueOf i.digits

end IntegerLiteral

def InWord (v : Int) : Prop := -2 ^ 63 ≤ v ∧ v ≤ 2 ^ 63 - 1

instance : DecidablePred InWord := fun _ => inferInstanceAs (Decidable (_ ∧ _))

theorem fits_iff_inWord {v : Int} : Numeral.fits v = true ↔ InWord v := by
  rw [Numeral.fits_iff, InWord]
  omega

namespace Context

variable {x : Context} {token cs ds : List Char} {l : Nat} {c : Char}

theorem lineAfter_of_not_mem (h : '\n' ∉ cs) (l : Nat) : lineAfter l cs = l := by
  rw [lineAfter_eq_add_count, List.count_eq_zero.mpr h, Nat.add_zero]

theorem numberFrom?_zeros (zeros base : Nat) :
    Text.numberFrom? 10 0 (List.replicate zeros '0' ++ Nat.toDigits 10 base) = some base := by
  induction zeros with
  | zero => exact numberFrom?_toDigits base
  | succ zeros ih => exact ih

theorem newline_not_mem_mark (negative : Bool) (b : BaseMark) : '\n' ∉ signText negative ++ b.text := by
  have hs : '\n' ∉ signText negative := by cases negative <;> decide
  rw [List.mem_append, not_or]
  refine ⟨hs, ?_⟩
  cases b with
  | decimal => exact List.not_mem_nil
  | hexadecimal upper => cases upper <;> decide
  | radix zeros base upper low high =>
    have hd : '\n' ∉ Nat.toDigits 10 base := by
      intro h
      have hdigit : ('\n' : Char).isDigit = true :=
        Nat.isDigit_of_mem_toDigits (by decide) (by decide) h
      cases hdigit
    cases upper <;> simp [BaseMark.text, hd]

theorem rest_baseMark (negative : Bool) (b : BaseMark) (hc : (Text.digitIn? b.base c).isSome = true) :
    (x.idle (signText negative ++ b.text ++ c :: cs) l).rest =
      (x.reader (b.mode (.counted negative b.base 0 0)) (signText negative ++ b.text).reverse (c :: cs)
        (lineAfter l (signText negative ++ b.text))).rest := by
  have hsign : (signText negative).reverse = signText negative := by cases negative <;> rfl
  have hsmall {m : Nat} (hm : m ≤ 36) : Numeral.fits (Numeral.signed negative m) = true := by
    rw [Numeral.fits_iff]
    cases negative <;> simp only [Numeral.signed] <;> simp <;> omega
  cases b with
  | decimal =>
    simp only [BaseMark.text, List.append_nil, hsign]
    rw [rest_sign negative (isDigit_of_digitIn? hc), Numeral.start_eq_counted]
    rfl
  | hexadecimal upper =>
    obtain ⟨mark, htext, hmark⟩ : ∃ mark, (BaseMark.hexadecimal upper).text = ['0', mark] ∧
        (mark = 'x' ∨ mark = 'X') := ⟨_, rfl, by cases upper <;> simp⟩
    have hsplit : signText negative ++ ['0', mark] ++ c :: cs =
        signText negative ++ ['0'] ++ mark :: c :: cs := by simp
    rw [htext, hsplit, rest_signedDigits negative (by simp) rfl (hsmall (by decide))]
    refine (rest_hexMark negative hmark).trans ?_
    simp only [List.reverse_append, hsign, lineAfter_append]
    rfl
  | radix zeros base upper low high =>
    obtain ⟨mark, htext, hmark⟩ : ∃ mark, (BaseMark.radix zeros base upper low high).text =
        List.replicate zeros '0' ++ Nat.toDigits 10 base ++ [mark] ∧ (mark = 'r' ∨ mark = 'R') :=
      ⟨_, rfl, by cases upper <;> simp⟩
    have hne : List.replicate zeros '0' ++ Nat.toDigits 10 base ≠ [] := by simp [Nat.toDigits_ne_nil]
    have hnumber := numberFrom?_zeros zeros base
    rw [htext]
    generalize List.replicate zeros '0' ++ Nat.toDigits 10 base = bs at hne hnumber
    have hsplit : signText negative ++ (bs ++ [mark]) ++ c :: cs =
        signText negative ++ bs ++ mark :: c :: cs := by simp
    rw [hsplit, rest_signedDigits negative hne hnumber (hsmall high),
      rest_radixMark negative hmark low high]
    simp only [List.reverse_append, hsign, lineAfter_append]
    rfl

theorem rest_countedEnd {mode : Numeral → Mode} (hm : mode = .number ∨ mode = .radixNumber)
    (negative : Bool) (base m : Nat) {k : Nat} (hk : k ≠ 0) (hd : Text.AtSeparator ds) :
    (x.reader (mode (.counted negative base m k)) token ds l).rest =
      x.accept (.atom (.int (Int64.ofInt (Numeral.signed negative m)))) ds l := by
  cases ds with
  | nil => exact rest_pending_nil (pending?_counted hm negative base m hk)
  | cons c cs =>
    rcases hm with rfl | rfl
    · exact rest_numberEnd hk (hd c rfl)
    · exact rest_radixNumberEnd hk (hd c rfl)

theorem rest_overflow {mode : Numeral → Mode} {base : Nat} (hmode : TakesDigits mode base)
    {negative : Bool} {m d : Nat} (hd : Text.digitIn? base c = some d)
    (hm : Numeral.fits (Numeral.signed negative m) = true)
    (ho : Numeral.fits (Numeral.signed negative (base * m + d)) = false) (k : Nat) :
    (x.reader (mode (.counted negative base m k)) token (c :: cs) l).rest =
      ([], some ⟨l, x.name, .numberTooLarge (String.ofList (c :: token).reverse)⟩) := by
  have hline : nextLine l c = l := by
    refine if_neg ?_
    rintro rfl
    rw [Cursor.digitIn?_newline] at hd
    cases hd
  have hs : (x.reader (mode (.counted negative base m k)) token cs (nextLine l c)).step c =
      .fault (.numberTooLarge (String.ofList (c :: token).reverse))
        (x.reader (mode (.counted negative base m k)) (c :: token) cs (nextLine l c)) := by
    rw [hmode _ (.counted negative base m k) c rfl (Option.isSome_of_mem hd), Reader.pushDigit,
      Numeral.push_counted_overflow hd hm ho]
    rfl
  rw [rest_step hs (by rintro t ⟨⟩), hline]
  rfl

end Context

namespace IntegerLiteral

variable {i : IntegerLiteral} {x : Context} {ds es : List Char} {l : Nat}

theorem valid_of_subset (h : es ⊆ i.digits) : ∀ c ∈ es, (Text.digitIn? i.mark.base c).isSome = true :=
  fun c hc => i.valid c (h hc)

theorem lineAfter_spelling (h : es ⊆ i.digits) (l : Nat) : lineAfter l (i.spelling es) = l := by
  refine Context.lineAfter_of_not_mem ?_ l
  rw [spelling, List.mem_append, not_or]
  refine ⟨Context.newline_not_mem_mark i.negative i.mark, ?_⟩
  intro hn
  have hnone := valid_of_subset h _ hn
  rw [Cursor.digitIn?_newline] at hnone
  cases hnone

theorem rest_digits {cs : List Char} (hdigits : i.digits = es ++ cs) (hf : InWord (i.valueOf es)) :
    (x.idle (i.text ++ ds) l).rest =
      (x.reader (i.mark.mode (.counted i.negative i.mark.base (Text.positional i.mark.base es) es.length))
        (i.spelling es).reverse (cs ++ ds) l).rest := by
  have hsub : es ⊆ i.digits := hdigits ▸ List.subset_append_left es cs
  have hnumber := Text.numberFrom?_zero (valid_of_subset hsub)
  have hstart : (x.idle (i.text ++ ds) l).rest =
      (x.reader (i.mark.mode (.counted i.negative i.mark.base 0 0))
        (Context.signText i.negative ++ i.mark.text).reverse (es ++ (cs ++ ds))
        (lineAfter l (Context.signText i.negative ++ i.mark.text))).rest := by
    obtain ⟨c, rest, hcons⟩ := List.exists_cons_of_ne_nil i.nonempty
    have htext : i.text ++ ds =
        Context.signText i.negative ++ i.mark.text ++ c :: (rest ++ ds) := by
      simp [text, spelling, hcons]
    have hleft : es ++ (cs ++ ds) = c :: (rest ++ ds) := by
      rw [← List.append_assoc, ← hdigits, hcons, List.cons_append]
    rw [htext, hleft, Context.rest_baseMark i.negative i.mark (i.valid c (by simp [hcons]))]
  have hline : lineAfter (lineAfter l (Context.signText i.negative ++ i.mark.text)) es = l := by
    rw [← lineAfter_append]
    exact lineAfter_spelling hsub l
  rw [hstart, Context.rest_digits i.mark.takesDigits i.mark.one_le_base hnumber (fits_iff_inWord.mpr hf),
    hline, Nat.zero_add, ← List.reverse_append]
  rfl

theorem inWord_valueOf_nil (i : IntegerLiteral) : InWord (i.valueOf []) := by
  rw [← fits_iff_inWord, valueOf]
  cases i.negative <;> rfl

theorem exists_first_outside (h : ¬ InWord i.value) :
    ∃ es c cs, i.digits = es ++ c :: cs ∧ ¬ InWord (i.valueOf (es ++ [c])) ∧
      ∀ j ≤ es.length, InWord (i.valueOf (i.digits.take j)) := by
  classical
  have hex : ∃ k, ¬ InWord (i.valueOf (i.digits.take k)) :=
    ⟨i.digits.length, by rw [List.take_length]; exact h⟩
  have hout := Nat.find_spec hex
  have hmin (j : Nat) (hj : j < Nat.find hex) : InWord (i.valueOf (i.digits.take j)) :=
    not_not.mp (Nat.find_min hex hj)
  have hle : Nat.find hex ≤ i.digits.length :=
    Nat.find_min' hex (by rw [List.take_length]; exact h)
  cases hk : Nat.find hex with
  | zero =>
    rw [hk] at hout
    exact absurd (inWord_valueOf_nil i) hout
  | succ k =>
    rw [hk] at hout hmin hle
    have htake : i.digits.take k ++ [i.digits[k]] = i.digits.take (k + 1) := List.take_append_getElem hle
    have hdrop : i.digits[k] :: i.digits.drop (k + 1) = i.digits.drop k :=
      (List.drop_eq_getElem_cons hle).symm
    refine ⟨i.digits.take k, i.digits[k], i.digits.drop (k + 1), ?_, by rwa [htake], ?_⟩
    · rw [hdrop, List.take_append_drop]
    · intro j hj
      rw [List.length_take] at hj
      exact hmin j (by omega)

end IntegerLiteral

/-- A literal before a separator or the end of the text is read as its exact value, or refused with its
shortest part that has left the range. -/
theorem rest_integerLiteral (i : IntegerLiteral) (x : Context) {ds : List Char} (hd : Text.AtSeparator ds)
    (l : Nat) :
    (InWord i.value → ∃ n : Int64, n.toInt = i.value ∧
      (x.idle (i.text ++ ds) l).rest = x.accept (.atom (.int n)) ds l) ∧
    (¬ InWord i.value → ∃ k, k ≤ i.digits.length ∧ ¬ InWord (i.valueOf (i.digits.take k)) ∧
      (∀ j < k, InWord (i.valueOf (i.digits.take j))) ∧
      (x.idle (i.text ++ ds) l).rest = ([], some ⟨l, x.name,
        .numberTooLarge (String.ofList (i.spelling (i.digits.take k)))⟩)) := by
  constructor
  · intro hin
    refine ⟨Int64.ofInt i.value, Numeral.toInt_ofInt_of_fits (fits_iff_inWord.mpr hin), ?_⟩
    rw [IntegerLiteral.rest_digits (List.append_nil _).symm hin]
    exact Context.rest_countedEnd i.mark.mode_eq _ _ _ (by simp [i.nonempty]) hd
  · intro hout
    obtain ⟨es, c, cs, hdigits, hc, hes⟩ := IntegerLiteral.exists_first_outside hout
    have hvalid : (Text.digitIn? i.mark.base c).isSome = true := i.valid c (by simp [hdigits])
    have hin : InWord (i.valueOf es) := by simpa [hdigits] using hes es.length (Nat.le_refl _)
    have hfirst : i.digits.take (es.length + 1) = es ++ [c] := by
      rw [hdigits, List.take_length_add_append, List.take_one, List.head?_cons, Option.toList_some]
    have hover : Numeral.fits (Numeral.signed i.negative
        (i.mark.base * Text.positional i.mark.base es + Text.weight i.mark.base c)) = false := by
      rw [← Text.positional_concat, Bool.eq_false_iff, ne_eq, fits_iff_inWord]
      exact hc
    refine ⟨es.length + 1, by simp [hdigits], by rwa [hfirst], fun j hj => hes j (by omega), ?_⟩
    rw [IntegerLiteral.rest_digits hdigits hin, hfirst, List.cons_append,
      Context.rest_overflow i.mark.takesDigits (Text.digitIn?_eq_weight hvalid)
        (fits_iff_inWord.mpr hin) hover]
    simp [IntegerLiteral.spelling]

def leastLiteral : IntegerLiteral :=
  ⟨true, .hexadecimal true, "8000000000000000".toList, by decide, List.all_eq_true.mp rfl⟩

def outsideLiteral : IntegerLiteral :=
  ⟨false, .radix 0 36 true (by decide) (by decide), "1Y2p0ij32e8e800".toList, by decide,
    List.all_eq_true.mp rfl⟩

theorem rest_integerLiteral_limits :
    read "-0X8000000000000000" "-" = ⟨[.atom (.int Int64.minValue)], none⟩ ∧
      read "36R1Y2p0ij32e8e800(" "-" = ⟨[], some ⟨1, "-", .numberTooLarge "36R1Y2p0ij32e8e8"⟩⟩ := by
  have hend : Text.AtSeparator [] := by rintro c ⟨⟩
  have hopen : Text.AtSeparator ['('] := by
    rintro c ⟨⟩
    rfl
  constructor
  · obtain ⟨n, hn, hrest⟩ := (rest_integerLiteral leastLiteral ⟨"-", [], 0⟩ hend 1).1 (by decide)
    obtain rfl : n = Int64.minValue := Int64.toInt_inj.mp (hn.trans (by decide))
    have hread : read "-0X8000000000000000" "-" =
        ⟨(Context.idle ⟨"-", [], 0⟩ (leastLiteral.text ++ []) 1).rest.1,
          (Context.idle ⟨"-", [], 0⟩ (leastLiteral.text ++ []) 1).rest.2⟩ := rfl
    have haccept : Context.accept ⟨"-", [], 0⟩ (.atom (.int Int64.minValue)) [] 1 =
        (.atom (.int Int64.minValue) :: (Context.idle ⟨"-", [], 0⟩ [] 1).rest.1,
          (Context.idle ⟨"-", [], 0⟩ [] 1).rest.2) := rfl
    rw [hread, hrest, haccept, Context.rest_idle_nil]
    rfl
  · obtain ⟨k, -, hout, hin, hrest⟩ :=
      (rest_integerLiteral outsideLiteral ⟨"-", [], 0⟩ hopen 1).2 (by decide)
    have hle : k ≤ 13 := by
      by_contra hlt
      exact absurd (hin 13 (by omega)) (by decide)
    have hge : 13 ≤ k := by
      by_contra hlt
      have hall : ∀ j < 13, InWord (outsideLiteral.valueOf (outsideLiteral.digits.take j)) := by decide
      exact hout (hall k (by omega))
    obtain rfl : k = 13 := by omega
    have hread : read "36R1Y2p0ij32e8e800(" "-" =
        ⟨(Context.idle ⟨"-", [], 0⟩ (outsideLiteral.text ++ ['(']) 1).rest.1,
          (Context.idle ⟨"-", [], 0⟩ (outsideLiteral.text ++ ['(']) 1).rest.2⟩ := rfl
    rw [hread, hrest]
    rfl

end Source
end LazyLisp
