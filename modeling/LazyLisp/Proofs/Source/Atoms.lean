import LazyLisp.Proofs.Source.Run

namespace LazyLisp

namespace Text

def boundaries : List Char :=
  [' ', '\n', '\x0d', '\t', '\x0c', '\x0b', ',', ')', ']', '\x7d', ';']

def AtBoundary (ds : List Char) : Prop := ∀ c ∈ ds.head?, c ∈ boundaries

theorem atBoundary_cons {c : Char} (hc : c ∈ boundaries) (cs : List Char) : AtBoundary (c :: cs) := by
  rintro d ⟨⟩
  exact hc

def numberFrom? (base : Nat) : Nat → List Char → Option Nat
  | m, [] => some m
  | m, c :: cs =>
    match digitIn? base c with
    | some d => numberFrom? base (base * m + d) cs
    | none => none

/-- A body in which every quote stands after a backslash of its own, and every backslash before some
character. -/
def isStringBody : List Char → Bool
  | [] => true
  | '\\' :: _ :: rest => isStringBody rest
  | c :: rest => c != '\\' && c != '\x22' && isStringBody rest

def startsSymbol : List Char → Bool
  | [] => false
  | '-' :: rest => !rest.head?.any Char.isDigit
  | c :: _ => !c.isDigit && c != ':'

structure IsToken (cs : List Char) : Prop where
  starts : startsSymbol cs = true
  inside : ∀ c ∈ cs, Source.endsSymbol c = false

def marks : List (List Char) := [['\x60'], ['^'], ['@'], ['&'], ['~'], ['~', '@']]

def constants : List (List Char) :=
  [['n', 'i', 'l'], ['t', 'r', 'u', 'e'], ['f', 'a', 'l', 's', 'e']]

structure IsName (cs : List Char) : Prop where
  nonempty : cs ≠ []
  inside : ∀ c ∈ cs, isKeywordChar c = true

inductive IsKeyword : List Char → Prop
  | bare {colons name : List Char} : colons = [':'] ∨ colons = [':', ':'] → IsName name →
      IsKeyword (colons ++ name)
  | qualified {colons space name : List Char} : colons = [':'] ∨ colons = [':', ':'] → IsName space →
      IsName name → IsKeyword (colons ++ space ++ '/' :: name)

theorem eq_false_of_all {p : Char → Bool} {cs : List Char} (h : (cs.all fun c => !p c) = true) :
    ∀ c ∈ cs, p c = false := by
  intro c hc
  simpa using List.all_eq_true.mp h c hc

theorem isToken_of_all {cs : List Char} (hs : startsSymbol cs = true)
    (h : (cs.all fun c => !Source.endsSymbol c) = true) : IsToken cs := ⟨hs, eq_false_of_all h⟩

theorem isSeparator_of_mem_boundaries : ∀ c ∈ boundaries, isSeparator c = true :=
  List.all_eq_true.mp (by decide)

theorem endsSymbol_of_mem_boundaries : ∀ c ∈ boundaries, Source.endsSymbol c = true :=
  List.all_eq_true.mp (by decide)

theorem isKeywordChar_of_mem_boundaries : ∀ c ∈ boundaries, isKeywordChar c = false :=
  eq_false_of_all (by decide)

theorem not_digit_of_mem_boundaries : ∀ c ∈ boundaries, c.isDigit = false :=
  eq_false_of_all (by decide)

theorem ne_of_mem_boundaries :
    ∀ c ∈ boundaries, ∀ d ∈ ['/', ':', '@'], c ≠ d := by
  intro c hc d hd h
  have ho : ∀ d ∈ ['/', ':', '@'], boundaries.contains d = false :=
    eq_false_of_all (by decide)
  have hb : boundaries.contains d = true := List.elem_eq_true_of_mem (h ▸ hc)
  rw [ho d hd] at hb
  cases hb

end Text

/-- The atoms whose written form is read back. -/
def Atom.Readable : Atom → Prop
  | .str body => Text.isStringBody body.toList = true
  | .keyword text => Text.IsKeyword text.toList
  | .symbol name =>
    name.toList ∈ Text.marks ∨ Text.IsToken name.toList ∧ name.toList ∉ Text.constants
  | _ => True

namespace Source.Numeral

variable {c : Char}

def signed (negative : Bool) (m : Nat) : Int := if negative then -m else m

def counted (negative : Bool) (base m k : Nat) : Numeral :=
  ⟨negative, Int64.ofInt (signed negative m), base, k⟩

theorem start_eq_counted (negative : Bool) : start negative = counted negative 10 0 0 := by
  cases negative <;> rfl

theorem inBase_eq_counted (n : Numeral) (base : Nat) : n.inBase base = counted n.negative base 0 0 := by
  obtain ⟨negative, value, base', digits⟩ := n
  cases negative <;> rfl

theorem fits_iff {i : Int} :
    fits i = true ↔ -9223372036854775808 ≤ i ∧ i < 9223372036854775808 := by
  have hl : Int64.minValue.toInt = -9223372036854775808 := by decide
  have hu : Int64.maxValue.toInt = 9223372036854775807 := by decide
  simp only [fits, hl, hu, Bool.and_eq_true, decide_eq_true_eq]
  omega

theorem toInt_ofInt_of_fits {i : Int} (h : fits i = true) : (Int64.ofInt i).toInt = i := by
  obtain ⟨hl, hu⟩ := fits_iff.mp h
  exact Int64.toInt_ofInt_of_le (by omega) (by omega)

theorem digitIn?_of_isDigit (h : c.isDigit = true) : Text.digitIn? 10 c = some (c.toNat - '0'.toNat) := by
  have hlt : c.toNat - '0'.toNat < 10 := by
    have hc := Char.isDigit_iff_toNat.mp h
    simp only [Char.reduceToNat] at hc ⊢
    omega
  simp only [Text.digitIn?, Text.digitWeight?, h, if_true, Option.filter, hlt, decide_true]

theorem numberFrom?_of_isDigit {ds : List Char} (hds : ∀ c ∈ ds, c.isDigit = true) (m : Nat) :
    Text.numberFrom? 10 m ds = some (Nat.ofDigitChars 10 ds m) := by
  induction ds generalizing m with
  | nil => simp [Text.numberFrom?]
  | cons c ds ih =>
    rw [Text.numberFrom?, digitIn?_of_isDigit (hds c (by simp)), Nat.ofDigitChars_cons]
    exact ih (fun d hd => hds d (by simp [hd])) _

theorem le_numberFrom? {base m k : Nat} {ds : List Char} (hb : 1 ≤ base)
    (h : Text.numberFrom? base m ds = some k) : m ≤ k := by
  induction ds generalizing m with
  | nil =>
    cases h
    exact Nat.le_refl _
  | cons c ds ih =>
    rw [Text.numberFrom?] at h
    split at h
    · next d _ =>
      have hle := ih h
      have hm : 1 * m ≤ base * m := Nat.mul_le_mul_right m hb
      omega
    · cases h

theorem extended_counted {negative : Bool} {m : Nat} (hm : fits (signed negative m) = true)
    (base d k : Nat) :
    (counted negative base m k).extended d = signed negative (base * m + d) := by
  simp only [extended, counted, toInt_ofInt_of_fits hm]
  simp only [signed]
  have hc : (m : Int) * base = base * m := Int.mul_comm _ _
  split
  · rw [Int.neg_mul]
    push_cast
    omega
  · push_cast
    omega

theorem push_counted {negative : Bool} {base m d k : Nat} (hd : Text.digitIn? base c = some d)
    (hm : fits (signed negative m) = true) (hf : fits (signed negative (base * m + d)) = true) :
    (counted negative base m k).push c = .ok (counted negative base (base * m + d) (k + 1)) := by
  have hb : Text.digitIn? (counted negative base m k).base c = some d := hd
  simp only [push, hb, extended_counted hm, hf, if_true]
  rfl

theorem push_counted_overflow {negative : Bool} {base m d k : Nat} (hd : Text.digitIn? base c = some d)
    (hm : fits (signed negative m) = true) (hf : fits (signed negative (base * m + d)) = false) :
    (counted negative base m k).push c = .error .overflow := by
  have hb : Text.digitIn? (counted negative base m k).base c = some d := hd
  simp [push, hb, extended_counted hm, hf]

theorem fits_signed_of_le {negative : Bool} {m k : Nat} (h : m ≤ k)
    (hf : fits (signed negative k) = true) :
    fits (signed negative m) = true := by
  rw [fits_iff] at hf ⊢
  simp only [signed] at hf ⊢
  split at hf <;> simp_all <;> omega

end Source.Numeral

namespace Source.Context

variable {x : Context} {mode : Mode} {token cs : List Char} {l : Nat} {c : Char}

theorem rest_stringBody {body : List Char} (hb : Text.isStringBody body = true) (token cs : List Char)
    (l : Nat) :
    (x.reader .string token (body ++ cs) l).rest =
      (x.reader .string (body.reverse ++ token) cs (lineAfter l body)).rest := by
  fun_induction Text.isStringBody body generalizing token l with
  | case1 => rfl
  | case2 c rest ih =>
    have hs : (x.reader .string token (c :: (rest ++ cs)) (nextLine l '\\')).step '\\' =
        .more (x.reader .string (c :: '\\' :: token) (rest ++ cs)
          (nextLine (nextLine l '\\') c)) := rfl
    rw [List.cons_append, List.cons_append, rest_more hs, ih hb]
    simp
  | case3 c rest hc ih =>
    simp only [Bool.and_eq_true, bne_iff_ne, ne_eq] at hb
    have hs : (x.reader .string token (rest ++ cs) (nextLine l c)).step c =
        .more (x.reader .string (c :: token) (rest ++ cs) (nextLine l c)) := by
      simp [Reader.step, reader, Reader.inString, hb, Reader.push]
    rw [List.cons_append, rest_more hs, ih hb.2]
    simp

theorem rest_string (x : Context) {body : String} (hb : Text.isStringBody body.toList = true)
    (cs : List Char) (l : Nat) :
    (x.idle ('\x22' :: (body.toList ++ '\x22' :: cs)) l).rest =
      x.accept (.atom (.str body)) cs (lineAfter l ('\x22' :: (body.toList ++ ['\x22']))) := by
  have ho : (x.idle (body.toList ++ '\x22' :: cs) (nextLine l '\x22')).step '\x22' =
      .more (x.reader .string [] (body.toList ++ '\x22' :: cs) (nextLine l '\x22')) := rfl
  rw [idle, rest_more ho, rest_stringBody hb]
  refine rest_emit ?_
  simp [Reader.step, reader, Reader.inString, Reader.emitString, Reader.text, Reader.cleared, idle]

theorem isBlank_of_endsSymbol (h : endsSymbol c = false) : Text.isBlank c = false := by
  unfold endsSymbol at h
  split at h <;> simp_all

theorem step_symbolChar {r : Reader} (hm : r.mode = .normal) (hc : endsSymbol c = false)
    (h : r.token ≠ [] ∨ c.isDigit = false ∧ c ≠ ':' ∧
      (c = '-' → r.cursor.peek?.any Char.isDigit = false)) :
    r.step c = .more (r.push c) := by
  have hb := isBlank_of_endsSymbol hc
  have hi : r.inNormal c = r.plain c := by simp [Reader.inNormal, hc]
  rw [Reader.step, hm]
  simp only [hi]
  unfold Reader.plain
  rw [if_neg (by simp [hb])]
  split
  case h_16 =>
    rw [if_neg]
    rintro ⟨ht, hd⟩
    simp_all
  case h_17 =>
    rw [if_neg, if_neg]
    · rintro ⟨ht, hd⟩
      simp_all
    · rintro ⟨ht, hd⟩
      simp_all
  all_goals cases hc

theorem rest_symbolChars {name : List Char} (hn : ∀ c ∈ name, endsSymbol c = false)
    (ht : token ≠ []) (l : Nat) :
    (x.reader .normal token (name ++ cs) l).rest =
      (x.reader .normal (name.reverse ++ token) cs (lineAfter l name)).rest := by
  induction name generalizing token l with
  | nil => rfl
  | cons c name ih =>
    have hs : (x.reader .normal token (name ++ cs) (nextLine l c)).step c =
        .more (x.reader .normal (c :: token) (name ++ cs) (nextLine l c)) :=
      step_symbolChar rfl (hn c (by simp)) (.inl ht)
    rw [List.cons_append, rest_more hs, ih (fun d hd => hn d (by simp [hd])) (by simp)]
    simp

theorem rest_tokenEnd (hc : endsSymbol c = true) (ht : token ≠ []) :
    (x.reader .normal token (c :: cs) l).rest = x.accept (tokenForm token.reverse) (c :: cs) l := by
  obtain ⟨name, stack, quotes⟩ := x
  -- The form goes out, and `c` is handed back, or it goes into a literal, and `c` is read on.
  cases stack with
  | nil =>
    have hs : (Context.reader ⟨name, [], quotes⟩ .normal token cs (nextLine l c)).step c =
        .form ((tokenForm token.reverse).quotedTimes quotes)
          ((Context.idle ⟨name, [], 0⟩ cs (nextLine l c)).hold c) := by
      change Reader.inNormal _ c = _
      rw [Reader.inNormal, if_pos ⟨ht, hc⟩]
      rfl
    rw [rest_step hs (by rintro t ⟨⟩; rfl)]
    exact congrArg (fun p => (_ :: p.1, p.2)) (rest_hold ⟨name, [], 0⟩ c cs l)
  | cons o stack =>
    have hs : (Context.reader ⟨name, o :: stack, quotes⟩ .normal token cs (nextLine l c)).step c =
        (Context.idle ⟨name, ⟨o.bracket, (tokenForm token.reverse).quotedTimes o.quotes :: o.items, 0⟩ ::
          stack, quotes⟩ cs (nextLine l c)).plain c := by
      change Reader.inNormal _ c = _
      rw [Reader.inNormal, if_pos ⟨ht, hc⟩]
      rfl
    rw [rest_eq_onward_outcome, hs]
    exact (rest_eq_onward_outcome ⟨name, ⟨o.bracket, _ :: o.items, 0⟩ :: stack, quotes⟩ .normal []
      c cs l).symm

theorem rest_keywordEnd (hc : c ∈ Text.boundaries)
    (hk : mode = .keyword ∧ (x.reader mode token cs (nextLine l c)).keywordComplete = true ∨
      mode = .qualifiedKeyword ∧ (x.reader mode token cs (nextLine l c)).nameComplete = true) :
    (x.reader mode token (c :: cs) l).rest =
      x.accept (.atom (.keyword (String.ofList token.reverse))) (c :: cs) l := by
  have hkc := Text.isKeywordChar_of_mem_boundaries c hc
  have hsl : c ≠ '/' := Text.ne_of_mem_boundaries c hc '/' (by simp)
  have hcl : c ≠ ':' := Text.ne_of_mem_boundaries c hc ':' (by simp)
  refine rest_emit_hold ?_
  rcases hk with ⟨rfl, hk⟩ | ⟨rfl, hk⟩
  · simp only [Reader.step, reader, Reader.inKeyword] at hk ⊢
    simp [hkc, hsl, hcl, hk]
    rfl
  · simp only [Reader.step, reader, Reader.inQualifiedKeyword] at hk ⊢
    simp [hkc, hk]
    rfl

theorem not_separator_of_isAlphanum (h : c.isAlphanum = true) : Text.isSeparator c = false := by
  unfold Text.isSeparator
  split
  case h_11 =>
    unfold Text.isBlank
    split
    case h_8 => rfl
    all_goals cases h
  all_goals cases h

theorem not_alphanum_of_isSeparator (h : Text.isSeparator c = true) : c.isAlphanum = false := by
  cases ha : c.isAlphanum with
  | false => rfl
  | true =>
    rw [not_separator_of_isAlphanum ha] at h
    cases h

theorem rest_numberEnd {n : Numeral} (hn : n.digits ≠ 0) (hc : Text.isSeparator c = true) :
    (x.reader (.number n) token (c :: cs) l).rest = x.accept (.atom (.int n.value)) (c :: cs) l := by
  have hd : c.isDigit = false := (Bool.or_eq_false_iff.mp (not_alphanum_of_isSeparator hc)).2
  have hne (d : Char) (hsep : Text.isSeparator d = false) : c ≠ d := by
    rintro rfl
    rw [hsep] at hc
    cases hc
  refine rest_emit_hold ?_
  change Reader.inNumber _ n c = _
  rw [Reader.inNumber, if_neg (by simp [hd]), if_neg (hne '.' rfl), if_neg, if_neg, if_pos hc,
    Reader.emitNumber, if_neg hn]
  · rfl
  · rintro ⟨h | h, -⟩
    · exact hne 'x' rfl h
    · exact hne 'X' rfl h
  · rintro (h | h)
    · exact hne 'r' rfl h
    · exact hne 'R' rfl h

theorem rest_radixNumberEnd {n : Numeral} (hn : n.digits ≠ 0) (hc : Text.isSeparator c = true) :
    (x.reader (.radixNumber n) token (c :: cs) l).rest =
      x.accept (.atom (.int n.value)) (c :: cs) l := by
  have ha := not_alphanum_of_isSeparator hc
  refine rest_emit_hold ?_
  change Reader.inRadixNumber _ n c = _
  rw [Reader.inRadixNumber, if_neg (by simp [ha]), if_pos hc, Reader.emitNumber, if_neg hn]
  rfl

end Source.Context

namespace Source.Reader

variable {r : Reader} {f : Form}

/-- The form that the token under way stands for, if it may end here. -/
def pending? (r : Reader) : Option Form :=
  match r.mode with
  | .normal => if r.token = [] then none else some (tokenForm r.token.reverse)
  | .keyword => if r.keywordComplete then some (.atom (.keyword r.text)) else none
  | .qualifiedKeyword => if r.nameComplete then some (.atom (.keyword r.text)) else none
  | .number n | .radixNumber n => if n.digits = 0 then none else some (.atom (.int n.value))
  | .character | .string | .comment | .decimal => none

theorem flush_of_pending? (h : r.pending? = some f) : r.flush = r.cleared.emit f := by
  unfold pending? at h
  unfold flush
  split at h
  case h_1 hm =>
    split at h
    · cases h
    · next ht =>
      cases h
      simp only [hm, ht, if_false]
      rfl
  case h_2 hm =>
    split at h
    · next hk =>
      cases h
      simp only [hm, hk, if_true]
      rfl
    · cases h
  case h_3 hm =>
    split at h
    · next hk =>
      cases h
      simp only [hm, hk, if_true]
      rfl
    · cases h
  case h_4 hm | h_5 hm =>
    split at h
    · cases h
    · next hd =>
      cases h
      simp only [hm, emitNumber, hd, if_false]
  all_goals cases h

end Source.Reader

namespace Source.Context

variable {x : Context} {mode : Mode} {token cs ds : List Char} {l : Nat} {c : Char} {f : Form}

theorem rest_pending_nil (h : (x.reader mode token [] l).pending? = some f) :
    (x.reader mode token [] l).rest = x.accept f [] l := by
  have hf := Reader.flush_of_pending? h
  have hc : (x.reader mode token [] l).cleared = x.idle [] l := rfl
  rw [Reader.rest_of_end rfl rfl, Reader.finish, hf, hc]
  obtain ⟨name, stack, quotes⟩ := x
  cases stack with
  | nil => rfl
  | cons o stack =>
    have he : Reader.emit (idle ⟨name, o :: stack, quotes⟩ [] l) f = .more (idle
      ⟨name, ⟨o.bracket, f.quotedTimes o.quotes :: o.items, 0⟩ :: stack, quotes⟩ [] l) := rfl
    rw [accept, he, Reader.resume, rest_idle_nil]
    rfl

theorem rest_pending_cons (h : (x.reader mode token (c :: cs) l).pending? = some f)
    (hc : c ∈ Text.boundaries) : (x.reader mode token (c :: cs) l).rest = x.accept f (c :: cs) l := by
  unfold Reader.pending? at h
  split at h
  case h_1 hm =>
    obtain rfl : mode = .normal := hm
    split at h
    · cases h
    · next ht =>
      cases h
      exact rest_tokenEnd (Text.endsSymbol_of_mem_boundaries c hc) ht
  case h_2 hm =>
    obtain rfl : mode = .keyword := hm
    split at h
    · next hk =>
      cases h
      exact rest_keywordEnd hc (.inl ⟨rfl, hk⟩)
    · cases h
  case h_3 hm =>
    obtain rfl : mode = .qualifiedKeyword := hm
    split at h
    · next hk =>
      cases h
      exact rest_keywordEnd hc (.inr ⟨rfl, hk⟩)
    · cases h
  case h_4 n hm =>
    obtain rfl : mode = .number n := hm
    split at h
    · cases h
    · next hd =>
      cases h
      exact rest_numberEnd hd (Text.isSeparator_of_mem_boundaries c hc)
  case h_5 n hm =>
    obtain rfl : mode = .radixNumber n := hm
    split at h
    · cases h
    · next hd =>
      cases h
      exact rest_radixNumberEnd hd (Text.isSeparator_of_mem_boundaries c hc)
  all_goals cases h

theorem rest_pending (h : (x.reader mode token ds l).pending? = some f) (hd : Text.AtBoundary ds) :
    (x.reader mode token ds l).rest = x.accept f ds l := by
  cases ds with
  | nil => exact rest_pending_nil h
  | cons c cs => exact rest_pending_cons h (hd c rfl)

theorem not_digit_of_atBoundary (hd : Text.AtBoundary ds) : ds.head?.any Char.isDigit = false := by
  cases ds with
  | nil => rfl
  | cons c cs => exact Text.not_digit_of_mem_boundaries c (hd c rfl)

theorem rest_token {name : List Char} (hn : Text.IsToken name) (hb : Text.AtBoundary ds) :
    (x.idle (name ++ ds) l).rest = x.accept (tokenForm name) ds (lineAfter l name) := by
  obtain ⟨hs, hi⟩ := hn
  cases name with
  | nil => cases hs
  | cons d name =>
    have hd : (x.idle (name ++ ds) (nextLine l d)).step d =
        .more (x.reader .normal [d] (name ++ ds) (nextLine l d)) := by
      refine step_symbolChar rfl (hi d (by simp)) (.inr ?_)
      unfold Text.startsSymbol at hs
      split at hs
      · simp_all
      · next rest heq =>
        cases heq
        refine ⟨rfl, by decide, fun _ => ?_⟩
        cases name with
        | nil => simpa [idle, reader, Cursor.peek?] using not_digit_of_atBoundary hb
        | cons e name => simpa [idle, reader, Cursor.peek?] using hs
      · next hne heq =>
        cases heq
        simp_all
    have hp : (x.reader .normal (name.reverse ++ [d]) ds (lineAfter (nextLine l d) name)).pending? =
        some (tokenForm (d :: name)) := by
      simp [Reader.pending?, reader]
    rw [List.cons_append, idle, rest_more hd, rest_symbolChars (fun e he => hi e (by simp [he])) (by simp),
      rest_pending hp hb]
    rfl

theorem rest_mark {name : String} (hn : name.toList ∈ Text.marks) (hb : Text.AtBoundary ds) :
    (x.idle (name.toList ++ ds) l).rest = x.accept (.symbol name) ds (lineAfter l name.toList) := by
  obtain ⟨chars, rfl⟩ : ∃ chars, name = String.ofList chars := ⟨_, (String.ofList_toList).symm⟩
  rw [String.toList_ofList] at hn ⊢
  simp only [Text.marks, List.mem_cons, List.not_mem_nil, or_false] at hn
  rcases hn with rfl | rfl | rfl | rfl | rfl | rfl
  · exact rest_emit rfl
  · exact rest_emit rfl
  · exact rest_emit rfl
  · exact rest_emit rfl
  · refine rest_emit ?_
    cases ds with
    | nil => rfl
    | cons c cs =>
      have hat : c ≠ '@' := Text.ne_of_mem_boundaries c (hb c rfl) '@' (by simp)
      have ht : (x.idle (c :: cs) (nextLine l '~')).cursor.take? =
          some (c, ⟨cs, none, nextLine (nextLine l '~') c⟩) := rfl
      change Reader.plain (x.idle (c :: cs) (nextLine l '~')) '~' = _
      rw [Reader.plain, if_neg (by decide)]
      simp only [ht]
      split
      · next h =>
        cases h
        exact absurd rfl hat
      · rfl
  · exact rest_emit rfl

theorem rest_keywordChars {mode : Mode} (hm : mode = .keyword ∨ mode = .qualifiedKeyword)
    {name : List Char} (hn : ∀ c ∈ name, Text.isKeywordChar c = true) (token : List Char) (l : Nat) :
    (x.reader mode token (name ++ cs) l).rest =
      (x.reader mode (name.reverse ++ token) cs (lineAfter l name)).rest := by
  induction name generalizing token l with
  | nil => rfl
  | cons c name ih =>
    have hc : Text.isKeywordChar c = true := hn c (by simp)
    have hs : (x.reader mode token (name ++ cs) (nextLine l c)).step c =
        .more (x.reader mode (c :: token) (name ++ cs) (nextLine l c)) := by
      rcases hm with rfl | rfl
      · simp [Reader.step, reader, Reader.inKeyword, hc, Reader.push]
      · simp [Reader.step, reader, Reader.inQualifiedKeyword, hc, Reader.push]
    rw [List.cons_append, rest_more hs, ih (fun d hd => hn d (by simp [hd]))]
    simp

theorem ne_colon_of_isKeywordChar (h : Text.isKeywordChar c = true) : c ≠ ':' := by
  rintro rfl
  revert h
  decide

theorem ne_slash_of_isKeywordChar (h : Text.isKeywordChar c = true) : c ≠ '/' := by
  rintro rfl
  revert h
  decide

theorem reverse_of_isName {name : List Char} (hn : Text.IsName name) :
    ∃ c rest, name.reverse = c :: rest ∧ Text.isKeywordChar c = true := by
  obtain ⟨hne, hi⟩ := hn
  cases h : name.reverse with
  | nil => simp_all
  | cons c rest => exact ⟨c, rest, rfl, hi c (by rw [← List.mem_reverse, h]; simp)⟩

theorem keywordComplete_of_isName {name colons : List Char} (hn : Text.IsName name)
    (hcol : colons = [':'] ∨ colons = [':', ':']) :
    (x.reader mode (name.reverse ++ colons) cs l).keywordComplete = true := by
  obtain ⟨c, rest, hr, hc⟩ := reverse_of_isName hn
  have hne := ne_colon_of_isKeywordChar hc
  rcases hcol with rfl | rfl <;> simp [Reader.keywordComplete, reader, hr, hne]

theorem rest_colons {colons : List Char} (hcol : colons = [':'] ∨ colons = [':', ':']) :
    (x.idle (colons ++ cs) l).rest = (x.reader .keyword colons cs (lineAfter l colons)).rest := by
  have ho (ds : List Char) : (x.idle (':' :: ds) l).rest =
      (x.reader .keyword [':'] ds (nextLine l ':')).rest := rest_more rfl
  rcases hcol with rfl | rfl
  · exact ho cs
  · exact (ho (':' :: cs)).trans (rest_more rfl)

theorem rest_keyword {text : String} (hk : Text.IsKeyword text.toList) (hb : Text.AtBoundary ds) :
    (x.idle (text.toList ++ ds) l).rest =
      x.accept (.atom (.keyword text)) ds (lineAfter l text.toList) := by
  obtain ⟨chars, rfl⟩ : ∃ chars, text = String.ofList chars := ⟨_, (String.ofList_toList).symm⟩
  rw [String.toList_ofList] at hk ⊢
  cases hk with
  | @bare colons name hcol hn =>
    have hp : (x.reader .keyword (name.reverse ++ colons) ds
        (lineAfter (lineAfter l colons) name)).pending? =
        some (.atom (.keyword (String.ofList (name.reverse ++ colons).reverse))) :=
      if_pos (keywordComplete_of_isName hn hcol)
    rw [List.append_assoc, rest_colons hcol, rest_keywordChars (.inl rfl) hn.inside, rest_pending hp hb]
    rcases hcol with rfl | rfl <;> simp
  | @qualified colons space name hcol hs hn =>
    have hcomp : (x.reader .keyword (space.reverse ++ colons) (name ++ ds)
        (nextLine (lineAfter (lineAfter l colons) space) '/')).keywordComplete = true :=
      keywordComplete_of_isName hs hcol
    have hslash : (x.reader .keyword (space.reverse ++ colons) (name ++ ds)
        (nextLine (lineAfter (lineAfter l colons) space) '/')).step '/' =
        .more (x.reader .qualifiedKeyword ('/' :: (space.reverse ++ colons)) (name ++ ds)
          (nextLine (lineAfter (lineAfter l colons) space) '/')) := by
      have hk : Text.isKeywordChar '/' = false := by decide
      change Reader.inKeyword _ '/' = _
      rw [Reader.inKeyword, if_neg (by simp [hk]), if_pos ⟨rfl, hcomp⟩]
      rfl
    have hname : (x.reader .qualifiedKeyword (name.reverse ++ '/' :: (space.reverse ++ colons)) ds
        (lineAfter (nextLine (lineAfter (lineAfter l colons) space) '/') name)).nameComplete = true := by
      obtain ⟨d, rest, hr, hd⟩ := reverse_of_isName hn
      simp [Reader.nameComplete, reader, hr, ne_slash_of_isKeywordChar hd]
    have hp : (x.reader .qualifiedKeyword (name.reverse ++ '/' :: (space.reverse ++ colons)) ds
        (lineAfter (nextLine (lineAfter (lineAfter l colons) space) '/') name)).pending? =
        some (.atom (.keyword (String.ofList
          (name.reverse ++ '/' :: (space.reverse ++ colons)).reverse))) := if_pos hname
    rw [List.append_assoc, List.append_assoc, List.cons_append, rest_colons hcol,
      rest_keywordChars (.inl rfl) hs.inside, rest_more hslash,
      rest_keywordChars (.inr rfl) hn.inside, rest_pending hp hb]
    rcases hcol with rfl | rfl <;> simp

def TakesDigits (mode : Numeral → Mode) (base : Nat) : Prop :=
  ∀ (r : Reader) (n : Numeral) (c : Char), r.mode = mode n → (Text.digitIn? base c).isSome = true →
    r.step c = r.pushDigit n c mode

theorem rest_digits {mode : Numeral → Mode} {base : Nat} (hm : TakesDigits mode base) (hb : 1 ≤ base)
    {es : List Char} {negative : Bool} {m k : Nat} (he : Text.numberFrom? base m es = some k)
    (hf : Numeral.fits (Numeral.signed negative k) = true) (j : Nat) (token : List Char) (l : Nat) :
    (x.reader (mode (.counted negative base m j)) token (es ++ ds) l).rest =
      (x.reader (mode (.counted negative base k (j + es.length))) (es.reverse ++ token) ds
        (lineAfter l es)).rest := by
  induction es generalizing m j token l with
  | nil =>
    cases he
    rfl
  | cons c es ih =>
    rw [Text.numberFrom?] at he
    split at he
    · next d hd =>
      have hfc := Numeral.fits_signed_of_le (Numeral.le_numberFrom? hb he) hf
      have hle : 1 * m ≤ base * m := Nat.mul_le_mul_right m hb
      have hfm := Numeral.fits_signed_of_le (m := m) (by omega) hfc
      have hs : (x.reader (mode (.counted negative base m j)) token (es ++ ds) (nextLine l c)).step c =
          .more (x.reader (mode (.counted negative base (base * m + d) (j + 1))) (c :: token) (es ++ ds)
            (nextLine l c)) := by
        rw [hm _ (.counted negative base m j) c rfl (by rw [hd]; rfl), Reader.pushDigit,
          Numeral.push_counted hd hfm hfc]
        rfl
      rw [List.cons_append, rest_more hs, ih he]
      simp [Nat.add_comm, Nat.add_left_comm]
    · cases he

theorem isDigit_of_digitIn? (h : (Text.digitIn? 10 c).isSome = true) : c.isDigit = true := by
  obtain ⟨d, hd⟩ := Option.isSome_iff_exists.mp h
  simp only [Text.digitIn?, Option.filter_eq_some_iff, decide_eq_true_eq, Text.digitWeight?] at hd
  obtain ⟨hw, hlt⟩ := hd
  split at hw
  · next hd => exact hd
  · split at hw
    · cases hw
      omega
    · split at hw
      · cases hw
        omega
      · cases hw

theorem takesDigits_number : TakesDigits .number 10 := by
  intro r n c hm hc
  rw [Reader.step, hm]
  exact if_pos (isDigit_of_digitIn? hc)

theorem not_digit_of_isBlank (h : Text.isBlank c = true) : c.isDigit = false := by
  unfold Text.isBlank at h
  split at h <;> first | rfl | cases h

theorem step_digit {r : Reader} (hm : r.mode = .normal) (ht : r.token = []) (hd : c.isDigit = true) :
    r.step c = r.inNumber (.start false) c := by
  have hi : r.inNormal c = r.plain c := by simp [Reader.inNormal, ht]
  rw [Reader.step, hm]
  simp only [hi]
  unfold Reader.plain
  split
  · next hb => simp [not_digit_of_isBlank hb] at hd
  · split
    case h_17 => rw [if_pos ⟨ht, hd⟩]
    all_goals cases hd

theorem rest_firstDigit (hd : c.isDigit = true) :
    (x.idle (c :: cs) l).rest = (x.reader (.number (.start false)) [] (c :: cs) l).rest := by
  have hs := step_digit (r := x.idle cs (nextLine l c)) rfl rfl hd
  have hr : (x.reader (.number (.start false)) [] cs (nextLine l c)).step c =
      (x.reader (.number (.start false)) [] cs (nextLine l c)).inNumber (.start false) c := rfl
  rw [idle] at hs ⊢
  rw [rest_eq_onward_outcome, rest_eq_onward_outcome, hs, hr]
  simp only [Reader.inNumber, hd, if_true, Reader.pushDigit]
  rcases (Numeral.start false).push c with (_ | _) | n <;> rfl

theorem rest_minus (hd : c.isDigit = true) :
    (x.idle ('-' :: c :: cs) l).rest =
      (x.reader (.number (.start true)) ['-'] (c :: cs) (nextLine l '-')).rest :=
  rest_more (if_pos ⟨rfl, hd⟩)

def signText (negative : Bool) : List Char := if negative then ['-'] else []

theorem rest_sign (negative : Bool) (hd : c.isDigit = true) :
    (x.idle (signText negative ++ c :: cs) l).rest =
      (x.reader (.number (.start negative)) (signText negative) (c :: cs)
        (lineAfter l (signText negative))).rest := by
  cases negative with
  | true => exact rest_minus hd
  | false => exact rest_firstDigit hd

theorem isDigit_of_numberFrom? {m k : Nat} (h : Text.numberFrom? 10 m (c :: cs) = some k) :
    c.isDigit = true := by
  rw [Text.numberFrom?] at h
  split at h
  · next d hd => exact isDigit_of_digitIn? (by rw [hd]; rfl)
  · cases h

theorem rest_signedDigits (negative : Bool) {es : List Char} {m : Nat} (hne : es ≠ [])
    (he : Text.numberFrom? 10 0 es = some m) (hf : Numeral.fits (Numeral.signed negative m) = true)
    (ds : List Char) (l : Nat) :
    (x.idle (signText negative ++ es ++ ds) l).rest =
      (x.reader (.number (.counted negative 10 m es.length)) (es.reverse ++ signText negative) ds
        (lineAfter l (signText negative ++ es))).rest := by
  obtain ⟨c, cs, rfl⟩ := List.exists_cons_of_ne_nil hne
  rw [List.append_assoc, List.cons_append, rest_sign negative (isDigit_of_numberFrom? he),
    ← List.cons_append, Numeral.start_eq_counted, rest_digits takesDigits_number (by decide) he hf,
    lineAfter_append, Nat.zero_add]

theorem pending?_counted {mode : Numeral → Mode} (hm : mode = .number ∨ mode = .radixNumber)
    (negative : Bool) (base m : Nat) {k : Nat} (hk : k ≠ 0) :
    (x.reader (mode (.counted negative base m k)) token ds l).pending? =
      some (.atom (.int (Int64.ofInt (Numeral.signed negative m)))) := by
  rcases hm with rfl | rfl <;> exact if_neg hk

theorem rest_decimal (negative : Bool) {es : List Char} {m : Nat} (hne : es ≠ [])
    (he : Text.numberFrom? 10 0 es = some m) (hf : Numeral.fits (Numeral.signed negative m) = true)
    (hb : Text.AtBoundary ds) :
    (x.idle (signText negative ++ es ++ ds) l).rest =
      x.accept (.atom (.int (Int64.ofInt (Numeral.signed negative m)))) ds
        (lineAfter l (signText negative ++ es)) := by
  rw [rest_signedDigits negative hne he hf,
    rest_pending (pending?_counted (.inl rfl) negative 10 m (by simp [hne])) hb]

theorem numberFrom?_toDigits (m : Nat) : Text.numberFrom? 10 0 (Nat.toDigits 10 m) = some m := by
  have hds : ∀ d ∈ Nat.toDigits 10 m, d.isDigit = true :=
    fun d hd => Nat.isDigit_of_mem_toDigits (by decide) (by decide) hd
  rw [Numeral.numberFrom?_of_isDigit hds, Nat.ofDigitChars_ten_toDigits]

theorem rest_int {i : Int64} (hb : Text.AtBoundary ds) :
    (x.idle (Text.decimal i.toInt ++ ds) l).rest =
      x.accept (.atom (.int i)) ds (lineAfter l (Text.decimal i.toInt)) := by
  have hl := Int64.le_toInt i
  have hu := Int64.toInt_lt i
  have hf : Numeral.fits i.toInt = true := Numeral.fits_iff.mpr ⟨by omega, by omega⟩
  have hi : Int64.ofInt i.toInt = i := Int64.ofInt_toInt i
  cases h : i.toInt with
  | ofNat m =>
    rw [h] at hf hi
    have hp := rest_decimal (x := x) (l := l) false Nat.toDigits_ne_nil (numberFrom?_toDigits m) hf hb
    exact hp.trans (congrArg (fun i => x.accept (.atom (.int i)) _ _) hi)
  | negSucc m =>
    rw [h] at hf hi
    have hp := rest_decimal (x := x) (l := l) true Nat.toDigits_ne_nil (numberFrom?_toDigits (m + 1)) hf hb
    exact hp.trans (congrArg (fun i => x.accept (.atom (.int i)) _ _) hi)

theorem takeSpelling_append (spelling cs : List Char) (l : Nat) :
    Cursor.takeSpelling spelling ⟨spelling ++ cs, none, l⟩ =
      .ok ((), ⟨cs, none, lineAfter l spelling⟩) := by
  induction spelling generalizing l with
  | nil => rfl
  | cons c spelling ih =>
    have ht : (⟨c :: (spelling ++ cs), none, l⟩ : Cursor).take? =
        some (c, ⟨spelling ++ cs, none, nextLine l c⟩) := rfl
    rw [List.cons_append, Cursor.takeSpelling, ht]
    simpa using ih (nextLine l c)

theorem atSeparator_of_atBoundary (hb : Text.AtBoundary ds) (l : Nat) :
    (⟨ds, none, l⟩ : Cursor).atSeparator = true := by
  cases ds with
  | nil => rfl
  | cons c cs => exact Text.isSeparator_of_mem_boundaries c (hb c rfl)

theorem spelling_eq_cons (n : Text.CharName) : ∃ d e rest, n.spelling = d :: e :: rest ∧
    Text.isSeparator e = false ∧ d ≠ 'u' ∧ d ≠ 'o' := by
  cases n <;> exact ⟨_, _, _, rfl, by decide, by decide, by decide⟩

theorem takeCharLiteral_named {n : Text.CharName} {d : Char} {rest : List Char}
    (hn : n.spelling = d :: rest) (hb : Text.AtBoundary ds) (l : Nat) :
    Cursor.takeCharLiteral d ⟨rest ++ ds, none, l⟩ = .ok (n.char, ⟨ds, none, lineAfter l rest⟩) := by
  obtain ⟨d', e, rest', hn', he, hu, ho⟩ := spelling_eq_cons n
  obtain ⟨rfl, rfl⟩ : d = d' ∧ rest = e :: rest' := by simpa [hn] using hn'
  have hat : (⟨e :: rest' ++ ds, none, l⟩ : Cursor).atSeparator = false := he
  have hnamed : Cursor.takeNamed d ⟨e :: rest' ++ ds, none, l⟩ =
      .ok (n.char, ⟨ds, none, lineAfter l (e :: rest')⟩) := by
    rw [Cursor.takeNamed, Text.CharName.ofInitial?_of_head? (n := n) (by rw [hn]; rfl)]
    simp only [hn, List.tail_cons, takeSpelling_append]
  rw [Cursor.takeCharLiteral, if_neg (by rw [hat]; decide)]
  simp only [if_neg hu, if_neg ho, hnamed, atSeparator_of_atBoundary hb, if_true]

theorem takeCharLiteral_single {d : Char} (hb : Text.AtBoundary ds) (l : Nat) :
    Cursor.takeCharLiteral d ⟨ds, none, l⟩ = .ok (d, ⟨ds, none, l⟩) := by
  rw [Cursor.takeCharLiteral, if_pos (atSeparator_of_atBoundary hb l)]

theorem rest_charLiteral {d v : Char} {rest : List Char} {l' : Nat}
    (ht : Cursor.takeCharLiteral d ⟨rest, none, nextLine (nextLine l '\\') d⟩ = .ok (v, ⟨cs, none, l'⟩)) :
    (x.idle ('\\' :: d :: rest) l).rest = x.accept (.atom (.char v)) cs l' := by
  have ho : (x.idle ('\\' :: d :: rest) l).rest =
      (x.reader .character [] (d :: rest) (nextLine l '\\')).rest := rest_more rfl
  rw [ho]
  refine rest_emit ?_
  change Reader.inCharacter _ d = _
  simp only [Reader.inCharacter, reader, ht]
  rfl

theorem rest_namedChar (n : Text.CharName) (hb : Text.AtBoundary ds) :
    (x.idle ('\\' :: n.spelling ++ ds) l).rest =
      x.accept (.atom (.char n.char)) ds (lineAfter l ('\\' :: n.spelling)) := by
  obtain ⟨d, e, rest, hs, -⟩ := spelling_eq_cons n
  rw [hs]
  exact rest_charLiteral (takeCharLiteral_named hs hb _)

theorem rest_singleChar (v : Char) (hb : Text.AtBoundary ds) :
    (x.idle ('\\' :: v :: ds) l).rest = x.accept (.atom (.char v)) ds (lineAfter l ['\\', v]) :=
  rest_charLiteral (takeCharLiteral_single hb _)

theorem rest_char {v : Char} (hb : Text.AtBoundary ds) :
    (x.idle (Atom.charText v ++ ds) l).rest =
      x.accept (.atom (.char v)) ds (lineAfter l (Atom.charText v)) := by
  unfold Atom.charText
  split
  · next n hn =>
    have hv : n.char = v := by simpa using List.find?_some hn
    rw [← hv]
    exact rest_namedChar n hb
  · exact rest_singleChar v hb

theorem tokenForm_of_not_mem {name : String} (h : name.toList ∉ Text.constants) :
    tokenForm name.toList = .symbol name := by
  simp only [Text.constants, List.mem_cons, not_or] at h
  simp [tokenForm, h]

theorem rest_atom {a : Atom} (ha : a.Readable) (hb : Text.AtBoundary ds) :
    (x.idle (a.text .readable ++ ds) l).rest =
      x.accept (.atom a) ds (lineAfter l (a.text .readable)) := by
  cases a with
  | nil => exact rest_token (Text.isToken_of_all rfl rfl) hb
  | bool b => cases b <;> exact rest_token (Text.isToken_of_all rfl rfl) hb
  | int i => exact rest_int hb
  | str body => simpa [Atom.text] using rest_string x ha ds l
  | char v => exact rest_char hb
  | keyword text => exact rest_keyword ha hb
  | symbol name =>
    rcases ha with hm | ⟨ht, hn⟩
    · exact rest_mark hm hb
    · rw [Atom.text, rest_token ht hb, tokenForm_of_not_mem hn]

end Source.Context
end LazyLisp
