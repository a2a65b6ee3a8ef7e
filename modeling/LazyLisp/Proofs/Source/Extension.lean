import LazyLisp.Proofs.Source.Lines
import LazyLisp.Proofs.Source.RoundTrip

namespace LazyLisp.Source

def StartsApart (ds : List Char) : Prop := ∀ c ∈ ds.head?, Text.isSeparator c = true

def StartsLine (ds : List Char) : Prop := ds = [] ∨ ∃ cs, ds = '\n' :: cs

theorem StartsLine.startsApart {ds : List Char} (hd : StartsLine ds) : StartsApart ds := by
  rcases hd with rfl | ⟨cs, rfl⟩
  · nofun
  · rintro _ ⟨⟩
    rfl

namespace Cursor

variable {α : Type} {s t : Cursor} {c : Char} {k : Nat} {ds : List Char}

/-- The same place in a longer text, `k` lines further down and with `ds` after the end. -/
def embed (k : Nat) (ds : List Char) (s : Cursor) : Cursor := ⟨s.rest ++ ds, s.held, s.line + k⟩

theorem take?_embed (h : s.take? = some (c, t)) : (s.embed k ds).take? = some (c, t.embed k ds) := by
  obtain ⟨rest, held, line⟩ := s
  cases held with
  | some d =>
    simp only [take?, Option.some.injEq, Prod.mk.injEq] at h
    obtain ⟨rfl, rfl⟩ := h
    rfl
  | none =>
    cases rest with
    | nil => simp [take?] at h
    | cons d rest =>
      simp only [take?, Option.some.injEq, Prod.mk.injEq] at h
      obtain ⟨rfl, rfl⟩ := h
      simp only [embed, take?, List.cons_append, Option.some.injEq, Prod.mk.injEq, true_and]
      split
      · exact congrArg (Cursor.mk _ _) (Nat.add_right_comm line k 1)
      · rfl

theorem take?_embed_nil (h : s.take? = none) : (s.embed k []).take? = none := by
  rw [← text_eq_nil_iff] at h ⊢
  simpa [text, embed] using h

theorem take?_embed_end (hd : StartsLine ds) (h : s.text = []) :
    (s.embed k ds).take? = none ∨ ∃ u, (s.embed k ds).take? = some ('\n', u) := by
  rcases hd with rfl | ⟨cs, rfl⟩
  · exact .inl (take?_embed_nil (text_eq_nil_iff.mp h))
  · obtain ⟨rest, held, line⟩ := s
    obtain ⟨rfl, rfl⟩ : rest = [] ∧ held = none := by
      simpa [text, and_comm] using h
    exact .inr ⟨_, rfl⟩

theorem peek?_of_take? (h : s.take? = some (c, t)) : s.peek? = some c := by
  obtain ⟨rest, held, line⟩ := s
  cases held with
  | some d =>
    cases h
    rfl
  | none =>
    cases rest with
    | nil => cases h
    | cons d rest =>
      cases h
      rfl

theorem peek?_embed (h : s.text ≠ []) : (s.embed k ds).peek? = s.peek? := by
  obtain ⟨c, t, ht⟩ := exists_take?_of_text_ne_nil h
  rw [peek?_of_take? ht, peek?_of_take? (take?_embed ht)]

theorem peek?_embed_end (hd : StartsLine ds) (h : s.text = []) :
    (s.embed k ds).peek? = none ∨ (s.embed k ds).peek? = some '\n' := by
  rcases take?_embed_end (k := k) hd h with h | ⟨u, h⟩
  · exact .inl ((peek?_eq_none_iff _).mpr h)
  · exact .inr (peek?_of_take? h)

theorem atSeparator_embed (h : s.text ≠ []) : (s.embed k ds).atSeparator = s.atSeparator := by
  simp only [atSeparator, peek?_embed h]

theorem atSeparator_embed_of_startsApart (hd : StartsApart ds) (s : Cursor) :
    (s.embed k ds).atSeparator = s.atSeparator := by
  by_cases hs : s.text = []
  · rw [atSeparator_of_text_eq_nil hs]
    obtain ⟨rest, held, line⟩ := s
    obtain ⟨rfl, rfl⟩ : rest = [] ∧ held = none := by
      simpa [text, and_comm] using hs
    cases ds with
    | nil => rfl
    | cons d ds => exact hd d rfl
  · exact atSeparator_embed hs

def embedScan (k : Nat) (ds : List Char) : Scan α → Scan α
  | .ok (v, t) => .ok (v, t.embed k ds)
  | .error (reason, t) => .error (reason, t.embed k ds)

/-- The scan has failed at the end of a text without a line end, and more text follows. -/
def CutShort (ds : List Char) (s : Cursor) (scan : Scan α) : Prop :=
  ds ≠ [] ∧ '\n' ∉ s.text ∧ ∃ e, scan = .error e

theorem cutShort_error (hd : ds ≠ []) (ht : s.take? = none) (e : Reason × Cursor) :
    s.CutShort ds (.error e : Scan α) := by
  have hs : s.text = [] := text_eq_nil_iff.mpr ht
  exact ⟨hd, by simp [hs], e, rfl⟩

theorem CutShort.of_take? {scan : Scan α} (h : t.CutShort ds scan) (ht : s.take? = some (c, t)) (hc : c ≠ '\n') :
    s.CutShort ds scan := by
  refine ⟨h.1, ?_, h.2.2⟩
  rw [(text_of_take? ht).1]
  exact fun hn => (List.mem_cons.mp hn).elim (fun he => hc he.symm) h.2.1

theorem not_cutShort_of_wholeLines (hw : WholeLines s.text) (hs : s.text ≠ []) (scan : Scan α) :
    ¬ s.CutShort ds scan := by
  rintro ⟨-, hn, -⟩
  have hlast : s.text.getLast hs = '\n' := hw _ (List.getLast?_eq_some_getLast hs)
  exact hn (hlast ▸ List.getLast_mem hs)

theorem takeCode_embed (k : Nat) (ds : List Char) (radix : Nat) (invalid : Reason) (count code : Nat) (s : Cursor) :
    takeCode radix invalid count code (s.embed k ds) = embedScan k ds (takeCode radix invalid count code s) ∨
      s.CutShort ds (takeCode radix invalid count code s) := by
  induction count generalizing code s with
  | zero => exact .inl rfl
  | succ count ih =>
    cases ht : s.take? with
    | none =>
      simp only [takeCode, ht]
      by_cases hd : ds = []
      · subst hd
        rw [take?_embed_nil ht]
        exact .inl rfl
      · exact .inr (cutShort_error hd ht _)
    | some p =>
      obtain ⟨c, t⟩ := p
      simp only [takeCode, ht, take?_embed ht]
      split
      · next d hd =>
        have hc : c ≠ '\n' := by
          rintro rfl
          simp [digitIn?_newline] at hd
        exact (ih _ t).imp_right fun h => h.of_take? ht hc
      · exact .inl rfl

theorem takeSpelling_embed (k : Nat) (ds : List Char) {spelling : List Char} (hn : '\n' ∉ spelling) (s : Cursor) :
    takeSpelling spelling (s.embed k ds) = embedScan k ds (takeSpelling spelling s) ∨
      s.CutShort ds (takeSpelling spelling s) := by
  induction spelling generalizing s with
  | nil => exact .inl rfl
  | cons d spelling ih =>
    simp only [List.mem_cons, not_or] at hn
    cases ht : s.take? with
    | none =>
      simp only [takeSpelling, ht]
      by_cases hd : ds = []
      · subst hd
        rw [take?_embed_nil ht]
        exact .inl rfl
      · exact .inr (cutShort_error hd ht _)
    | some p =>
      obtain ⟨c, t⟩ := p
      simp only [takeSpelling, ht, take?_embed ht]
      split
      · next hc => exact (ih hn.2 t).imp_right fun h => h.of_take? ht fun he => hn.1 (he ▸ hc)
      · exact .inl rfl

theorem takeCoded_embed (radix count : Nat) (invalid : Reason) (s : Cursor) :
    takeCoded radix count invalid (s.embed k ds) = embedScan k ds (takeCoded radix count invalid s) ∨
      s.CutShort ds (takeCoded radix count invalid s) := by
  unfold takeCoded
  rcases takeCode_embed k ds radix invalid count 0 s with h | ⟨hd, hn, e, h⟩
  · rw [h]
    refine .inl ?_
    rcases takeCode radix invalid count 0 s with ⟨reason, t⟩ | ⟨code, t⟩
    · rfl
    · simp only [embedScan]
      split <;> rfl
  · rw [h]
    exact .inr ⟨hd, hn, e, rfl⟩

theorem takeNamed_embed (c : Char) (s : Cursor) :
    takeNamed c (s.embed k ds) = embedScan k ds (takeNamed c s) ∨ s.CutShort ds (takeNamed c s) := by
  unfold takeNamed
  split
  · exact .inl rfl
  · next n _ =>
    rcases takeSpelling_embed k ds (newline_not_mem_spelling n) s with h | ⟨hd, hn, e, h⟩
    · rw [h]
      rcases takeSpelling n.spelling.tail s with ⟨reason, t⟩ | ⟨u, t⟩ <;> exact .inl rfl
    · rw [h]
      exact .inr ⟨hd, hn, e, rfl⟩

theorem takeLong_embed (c : Char) (s : Cursor) :
    takeLong c (s.embed k ds) = embedScan k ds (takeLong c s) ∨ s.CutShort ds (takeLong c s) := by
  unfold takeLong
  split
  · exact takeCoded_embed 16 4 _ s
  split
  · exact takeCoded_embed 8 3 _ s
  · exact takeNamed_embed c s

theorem takeCharLiteral_embed (hs : (s.embed k ds).atSeparator = s.atSeparator)
    (hlong : s.atSeparator = false → ¬ s.CutShort ds (takeLong c s))
    (ht : ∀ v t, takeLong c s = .ok (v, t) → (t.embed k ds).atSeparator = t.atSeparator) :
    takeCharLiteral c (s.embed k ds) = embedScan k ds (takeCharLiteral c s) := by
  rw [takeCharLiteral_eq, takeCharLiteral_eq, hs]
  split
  · rfl
  next hsep =>
  rw [(takeLong_embed c s).resolve_right (hlong (Bool.eq_false_iff.mpr hsep))]
  rcases he : takeLong c s with ⟨reason, t⟩ | ⟨value, t⟩
  · rfl
  · simp only [embedScan, ht value t he]
    split <;> rfl

theorem takeCharLiteral_embed_lines (k : Nat) (ds : List Char) (c : Char) (hw : WholeLines s.text)
    (hs : s.text ≠ []) :
    takeCharLiteral c (s.embed k ds) = embedScan k ds (takeCharLiteral c s) := by
  have hlong := stopsShort_takeLong c hw hs
  refine takeCharLiteral_embed (atSeparator_embed hs) (fun _ => not_cutShort_of_wholeLines hw hs _) fun v t ht => ?_
  rw [ht] at hlong
  exact atSeparator_embed hlong.2

/-- A line end that a character literal stands for at the end of the lines is torn from its literal
by a character that cannot end it. -/
theorem takeCharLiteral_newline_embed (k : Nat) (ds : List Char) (hs : s.text = []) :
    takeCharLiteral '\n' (s.embed k ds) = .ok ('\n', s.embed k ds) ∨
      ¬ StartsApart ds ∧
        takeCharLiteral '\n' (s.embed k ds) = .error (.unsupportedCharacter, s.embed k ds) := by
  by_cases hd : StartsApart ds
  · exact .inl (if_pos ((atSeparator_embed_of_startsApart hd s).trans (atSeparator_of_text_eq_nil hs)))
  · rw [takeCharLiteral_eq]
    split
    · exact .inl rfl
    · exact .inr ⟨hd, rfl⟩

end Cursor

def Reader.embed (k : Nat) (ds : List Char) (r : Reader) : Reader :=
  { r with cursor := r.cursor.embed k ds }

def Step.embed (k : Nat) (ds : List Char) : Step → Step
  | .more r => .more (r.embed k ds)
  | .form f r => .form f (r.embed k ds)
  | .fault reason r => .fault reason (r.embed k ds)

def Step.isFault : Step → Bool
  | .fault _ _ => true
  | _ => false

theorem Step.reader?_embed (k : Nat) (ds : List Char) (st : Step) :
    (st.embed k ds).reader? = st.reader?.map (Reader.embed k ds) := by
  cases st <;> rfl

namespace Reader

variable {r t e : Reader} {s : Cursor} {c : Char} {k : Nat} {ds : List Char} {fs : List Form}

theorem token_embed (r : Reader) : (r.embed k ds).token = r.token := rfl

theorem emit_embed (r : Reader) (f : Form) : (r.embed k ds).emit f = (r.emit f).embed k ds := by
  obtain ⟨name, cursor, mode, token, stack, quotes, failed⟩ := r
  cases stack <;> rfl

theorem closeBracket_embed (r : Reader) (c : Char) :
    (r.embed k ds).closeBracket c = (r.closeBracket c).embed k ds := by
  obtain ⟨name, cursor, mode, token, stack, quotes, failed⟩ := r
  cases stack with
  | nil => rfl
  | cons o stack =>
    simp only [closeBracket, embed]
    split
    · rfl
    split
    · rfl
    split
    · exact emit_embed ⟨name, cursor, mode, token, stack, quotes, failed⟩ _
    · rfl

theorem pushDigit_embed (r : Reader) (n : Numeral) (c : Char) (mode : Numeral → Mode) :
    (r.embed k ds).pushDigit n c mode = (r.pushDigit n c mode).embed k ds := by
  unfold pushDigit
  split <;> rfl

theorem emitNumber_embed (r : Reader) (n : Numeral) :
    (r.embed k ds).emitNumber n = (r.emitNumber n).embed k ds := by
  unfold emitNumber
  split
  · rfl
  · exact emit_embed r.cleared _

theorem inNumber_embed (r : Reader) (n : Numeral) (c : Char) :
    (r.embed k ds).inNumber n c = (r.inNumber n c).embed k ds := by
  unfold inNumber
  split
  · exact pushDigit_embed r n c _
  split
  · rfl
  split
  · split <;> rfl
  split
  · rfl
  split
  · exact emitNumber_embed (r.hold c) n
  · rfl

theorem inRadixNumber_embed (r : Reader) (n : Numeral) (c : Char) :
    (r.embed k ds).inRadixNumber n c = (r.inRadixNumber n c).embed k ds := by
  unfold inRadixNumber
  split
  · exact pushDigit_embed r n c _
  split
  · exact emitNumber_embed (r.hold c) n
  · rfl

theorem quoteMark_embed (r : Reader) : (r.embed k ds).quoteMark = r.quoteMark.embed k ds := by
  obtain ⟨name, cursor, mode, token, stack, quotes, failed⟩ := r
  cases stack <;> rfl

/-- What is looked at after `c` does not depend on the text that follows. -/
def Joins (r : Reader) (c : Char) (ds : List Char) : Prop := r.cursor.text = [] → c = '\n' ∨ StartsLine ds

theorem Joins.startsLine_of_not_blank (h : r.Joins c ds) (hb : ¬ Text.isBlank c = true) (hs : r.cursor.text = []) :
    StartsLine ds :=
  (h hs).resolve_left fun hc => hb (by rw [hc]; rfl)

theorem plain_embed (h : r.Joins c ds) : (r.embed k ds).plain c = (r.plain c).embed k ds := by
  have hcur : (r.embed k ds).cursor = r.cursor.embed k ds := rfl
  unfold plain
  split
  · rfl
  next hb =>
  have hend := h.startsLine_of_not_blank hb
  split
  case h_4 | h_5 | h_6 => exact closeBracket_embed r _
  case h_7 => exact congrArg Step.more (quoteMark_embed r)
  case h_8 | h_9 | h_10 | h_11 => exact emit_embed r _
  case h_12 =>
    rw [hcur]
    cases ht : r.cursor.take? with
    | none =>
      have hs := Cursor.text_eq_nil_iff.mpr ht
      rcases Cursor.take?_embed_end (k := k) (hend hs) hs with h | ⟨u, h⟩
      · rw [h]
        exact emit_embed r _
      · rw [h]
        exact emit_embed r _
    | some p =>
      obtain ⟨d, u⟩ := p
      rw [Cursor.take?_embed ht]
      by_cases hat : d = '@'
      · subst hat
        exact emit_embed { r with cursor := u } _
      · split
        · next h => simp_all
        · split
          · next h => simp_all
          · exact emit_embed r _
  case h_16 =>
    have hpeek : (r.cursor.embed k ds).peek?.any Char.isDigit = r.cursor.peek?.any Char.isDigit := by
      by_cases hs : r.cursor.text = []
      · rw [(Cursor.peek?_eq_none_iff _).mpr (Cursor.text_eq_nil_iff.mp hs)]
        rcases Cursor.peek?_embed_end (k := k) (hend hs) hs with h | h
        · rw [h]
        · rw [h]
          rfl
      · rw [Cursor.peek?_embed hs]
    rw [hcur, hpeek, token_embed]
    split <;> rfl
  case h_17 =>
    rw [token_embed]
    split
    · exact inNumber_embed r _ c
    · split <;> rfl
  all_goals rfl

theorem inNormal_embed (h : r.Joins c ds) : (r.embed k ds).inNormal c = (r.inNormal c).embed k ds := by
  unfold inNormal
  rw [token_embed]
  split
  · have he : (r.embed k ds).emitToken = r.emitToken.embed k ds := emit_embed r.cleared _
    rw [he]
    cases ht : r.emitToken with
    | more t =>
      have hc : t.cursor = r.cursor :=
        cursor_emit (r := r.cleared) (f := tokenForm r.token.reverse) (by rw [← emitToken, ht]; rfl)
      exact plain_embed fun hs => h (hc ▸ hs)
    | form f t => rfl
    | fault reason t => rfl
  · exact plain_embed h

theorem inCharacter_embed
    (h : (r.cursor.embed k ds).takeCharLiteral c = Cursor.embedScan k ds (r.cursor.takeCharLiteral c)) :
    (r.embed k ds).inCharacter c = (r.inCharacter c).embed k ds := by
  have hcur : (r.embed k ds).cursor = r.cursor.embed k ds := rfl
  unfold inCharacter
  rw [hcur, h]
  rcases r.cursor.takeCharLiteral c with ⟨reason, t⟩ | ⟨value, t⟩
  · rfl
  · exact emit_embed { r with cursor := t, mode := .normal } _

theorem inCharacter_embed_lines (k : Nat) (ds : List Char) (hw : WholeLines (c :: r.cursor.text)) :
    (r.embed k ds).inCharacter c = (r.inCharacter c).embed k ds ∨
      ¬ StartsApart ds ∧ ∃ reason t, (r.embed k ds).inCharacter c = .fault reason t := by
  by_cases hs : r.cursor.text = []
  -- Nothing is left, so the character is the last line end, and what comes next is the first of `ds`.
  · obtain rfl : c = '\n' := Decidable.byContradiction fun hc => hw.ne_nil hc hs
    rcases Cursor.takeCharLiteral_newline_embed k ds hs with h | ⟨hd, h⟩
    · refine .inl (inCharacter_embed ?_)
      rw [h, Cursor.takeCharLiteral_eq, if_pos (Cursor.atSeparator_of_text_eq_nil hs)]
      rfl
    · refine .inr ⟨hd, .unsupportedCharacter, r.embed k ds, ?_⟩
      have hcur : (r.embed k ds).cursor = r.cursor.embed k ds := rfl
      rw [inCharacter, hcur, h]
      rfl
  · exact .inl (inCharacter_embed (Cursor.takeCharLiteral_embed_lines k ds c (hw.of_suffix (List.suffix_cons _ _)) hs))

theorem inString_embed (h : r.cursor.text = [] → c = '\n' ∨ ds = [] ∨ (r.inString c).isFault = false) :
    (r.embed k ds).inString c = (r.inString c).embed k ds := by
  have hcur : (r.embed k ds).cursor = r.cursor.embed k ds := rfl
  unfold inString at h ⊢
  split
  · exact emit_embed r.cleared _
  next hq =>
  split
  · next hb =>
    rw [hcur]
    cases ht : r.cursor.take? with
    | none =>
      rw [if_neg hq, if_pos hb, ht] at h
      rcases h (Cursor.text_eq_nil_iff.mpr ht) with hc | rfl | hf
      · simp [hc] at hb
      · rw [Cursor.take?_embed_nil ht]
        rfl
      · cases hf
    | some p =>
      rw [Cursor.take?_embed ht]
      rfl
  · rfl

theorem inComment_embed (h : r.cursor.text = [] → c = '\n' ∨ ds = []) :
    (r.embed k ds).inComment c = (r.inComment c).embed k ds := by
  have hcur : (r.embed k ds).cursor = r.cursor.embed k ds := rfl
  unfold inComment
  split
  · rfl
  next hn =>
  split
  · rw [hcur]
    cases hs : r.cursor.take? with
    | none =>
      obtain rfl : ds = [] := (h (Cursor.text_eq_nil_iff.mpr hs)).resolve_left hn
      rw [Cursor.take?_embed_nil hs]
      rfl
    | some p =>
      obtain ⟨d, u⟩ := p
      rw [Cursor.take?_embed hs]
      by_cases hd : d = '\n'
      · subst hd
        rfl
      · split
        · next h => simp_all
        · split
          · next h => simp_all
          · rfl
  · rfl

theorem inKeyword_embed (r : Reader) (c : Char) :
    (r.embed k ds).inKeyword c = (r.inKeyword c).embed k ds := by
  have hk : (r.embed k ds).keywordComplete = r.keywordComplete := rfl
  unfold inKeyword
  rw [token_embed, hk]
  split
  · rfl
  split
  · rfl
  split
  · exact emit_embed (r.hold c).cleared _
  · rfl

theorem inQualifiedKeyword_embed (r : Reader) (c : Char) :
    (r.embed k ds).inQualifiedKeyword c = (r.inQualifiedKeyword c).embed k ds := by
  have hk : (r.embed k ds).nameComplete = r.nameComplete := rfl
  unfold inQualifiedKeyword
  rw [hk]
  split
  · rfl
  split
  · exact emit_embed (r.hold c).cleared _
  · rfl

theorem step_embed (h : r.Joins c ds)
    (hc : r.mode = .character → (r.embed k ds).inCharacter c = (r.inCharacter c).embed k ds)
    (hs : r.mode = .string → (r.embed k ds).inString c = (r.inString c).embed k ds)
    (hr : r.mode = .comment → (r.embed k ds).inComment c = (r.inComment c).embed k ds) :
    (r.embed k ds).step c = (r.step c).embed k ds := by
  have hm : (r.embed k ds).mode = r.mode := rfl
  unfold step
  rw [hm]
  split
  · exact inNormal_embed h
  · next hmode => exact hc hmode
  · next hmode => exact hs hmode
  · next hmode => exact hr hmode
  · exact inKeyword_embed r c
  · exact inQualifiedKeyword_embed r c
  · exact inNumber_embed r _ c
  · rfl
  · exact inRadixNumber_embed r _ c

theorem step_embed_lines (k : Nat) (ds : List Char) (hw : WholeLines (c :: r.cursor.text)) :
    (r.embed k ds).step c = (r.step c).embed k ds ∨
      ¬ StartsApart ds ∧ ∃ reason t, (r.embed k ds).step c = .fault reason t := by
  have hend (hs : r.cursor.text = []) : c = '\n' := Decidable.byContradiction fun hc => hw.ne_nil hc hs
  have hother (hc : r.mode = .character → (r.embed k ds).inCharacter c = (r.inCharacter c).embed k ds) :
      (r.embed k ds).step c = (r.step c).embed k ds :=
    step_embed (fun hs => .inl (hend hs)) hc (fun _ => inString_embed fun hs => .inl (hend hs))
      fun _ => inComment_embed fun hs => .inl (hend hs)
  by_cases hm : r.mode = .character
  · rcases inCharacter_embed_lines k ds hw with h | h
    · exact .inl (hother fun _ => h)
    · refine .inr ?_
      have hme : (r.embed k ds).mode = .character := hm
      rwa [step, hme]
  · exact .inl (hother fun h => absurd h hm)

theorem rest_embed_of_take? (k : Nat) (ds : List Char) (hr : r.LineFed)
    (ht : r.cursor.take? = some (c, s)) :
    (r.embed k ds).rest = resume (({ r with cursor := s }.step c).embed k ds) ∨
      ¬ StartsApart ds ∧ ∃ fault, (r.embed k ds).rest = ([], some fault) := by
  have hrest : (r.embed k ds).rest =
      onward (outcome (({ r with cursor := s }.embed k ds).step c)) := by
    rw [rest_eq_onward (r := r.embed k ds) hr.live,
      advance_of_take? (r := r.embed k ds) (Cursor.take?_embed ht)]
    rfl
  rcases step_embed_lines (r := { r with cursor := s }) k ds (hr.whole_of_take? ht) with h | ⟨hd, reason, t, h⟩
  · refine .inl ?_
    rw [hrest, h, onward_outcome]
    intro t hst
    rw [Step.reader?_embed, Option.map_eq_some_iff] at hst
    obtain ⟨t', hst, rfl⟩ := hst
    have hlive := (lineFed_step hr ht).live hst
    exact hlive
  · refine .inr ⟨hd, ⟨t.line, t.name, reason⟩, ?_⟩
    rw [hrest, h]
    rfl

theorem Leads.rest_embed (h : Leads r fs e) (hr : r.LineFed) (k : Nat) (ds : List Char) :
    (r.embed k ds).rest = (fs ++ (e.embed k ds).rest.1, (e.embed k ds).rest.2) ∨
      ¬ StartsApart ds ∧ (r.embed k ds).rest.2 ≠ none := by
  induction h with
  | here r => exact .inl rfl
  | more ht hs _ ih =>
    have hl := lineFed_step hr ht
    rw [hs] at hl
    rcases rest_embed_of_take? k ds hr ht with h | ⟨hd, fault, h⟩
    · rw [h, hs]
      exact ih hl
    · exact .inr ⟨hd, by simp [h]⟩
  | form ht hs _ ih =>
    have hl := lineFed_step hr ht
    rw [hs] at hl
    rcases rest_embed_of_take? k ds hr ht with h | ⟨hd, fault, h⟩
    · rw [h, hs]
      simp only [Step.embed, resume, List.cons_append]
      rcases ih hl with h | h
      · exact .inl (by rw [h])
      · exact .inr h
    · exact .inr ⟨hd, by simp [h]⟩

theorem Stuck.rest_embed (h : r.Stuck) (hr : r.LineFed) (k : Nat) (ds : List Char) :
    ∃ fault, (r.embed k ds).rest = ([], some fault) := by
  obtain ⟨c, s, reason, t, ht, hs⟩ := h
  rcases rest_embed_of_take? k ds hr ht with h | ⟨-, h⟩
  · rw [h, hs]
    exact ⟨_, rfl⟩
  · exact h

theorem text_embed_nil (r : Reader) (k : Nat) : (r.embed k []).cursor.text = r.cursor.text := by
  simp [embed, Cursor.embed, Cursor.text]

theorem lineFed_embed_nil (hr : r.LineFed) (k : Nat) : (r.embed k []).LineFed := by
  have hp : (r.embed k []).cursor.peek? = r.cursor.peek? := by
    simp [embed, Cursor.embed, Cursor.peek?]
  refine ⟨hr.live, ⟨hr.sound.items, hp ▸ hr.sound.token⟩, ?_, ?_⟩
  · rw [text_embed_nil]
    exact hr.whole
  · rw [text_embed_nil]
    exact hr.rested

theorem rest_embed_nil (hr : r.LineFed) (k : Nat) :
    (r.embed k []).rest.1 = r.rest.1 ∧ ((r.embed k []).rest.2 = none ↔ r.rest.2 = none) := by
  obtain ⟨fs, e, hl, he, hend⟩ := exists_end hr
  have hembed : (r.embed k []).rest = (fs ++ (e.embed k []).rest.1, (e.embed k []).rest.2) :=
    (hl.rest_embed hr k []).resolve_right fun h => h.1 (by simp [StartsApart])
  rcases hend with ⟨ht, hrest⟩ | ⟨hs, fault, hrest, -⟩
  · have hm : (e.embed k []).missing? = e.missing? := rfl
    have hnil := rest_of_text_eq_nil (lineFed_embed_nil he k) (by rw [text_embed_nil, ht])
    rw [hembed, hrest, hnil, hm]
    simp
  · obtain ⟨fault', hf⟩ := hs.rest_embed he k []
    rw [hembed, hrest, hf]
    simp

theorem start_append (text more name : String) :
    start (text ++ more) name = (start text name).embed 0 more.toList := by
  simp [start, Cursor.start, embed, Cursor.embed]

theorem lineFed_outer {cs : List Char} (hw : WholeLines cs) (name : String) (l : Nat) :
    ((Context.outer name).idle cs l).LineFed :=
  ⟨rfl, ⟨by simp [ItemsReadable, Context.outer, Context.idle, Context.reader], .inl rfl⟩, hw,
    fun _ => .inr ⟨rfl, rfl⟩⟩

theorem rest_outer_line {cs : List Char} (hw : WholeLines cs) (name : String) (l m : Nat) :
    ((Context.outer name).idle cs l).rest.1 = ((Context.outer name).idle cs m).rest.1 ∧
      (((Context.outer name).idle cs l).rest.2 = none ↔
        ((Context.outer name).idle cs m).rest.2 = none) := by
  have hembed (k : Nat) : ((Context.outer name).idle cs 0).embed k [] = (Context.outer name).idle cs k := by
    simp [embed, Cursor.embed, Context.idle, Context.reader]
  have h := rest_embed_nil (lineFed_outer hw name 0)
  rw [← hembed l, ← hembed m]
  exact ⟨(h l).1.trans (h m).1.symm, (h l).2.trans (h m).2.symm⟩

theorem embed_eq_reader (hr : r.LineFed) (ht : r.cursor.text = []) (ds : List Char) :
    r.embed 0 ds = r.context.reader r.mode r.token ds r.line := by
  have hlive := hr.live
  obtain ⟨name, ⟨rest, held, l⟩, mode, token, stack, quotes, failed⟩ := r
  obtain ⟨rfl, rfl⟩ : rest = [] ∧ held = none := by
    simpa [Cursor.text, and_comm] using ht
  obtain rfl : failed = false := hlive
  rfl

theorem embed_eq_outer (hr : r.LineFed) (ht : r.cursor.text = []) (h : r.missing? = none)
    (ds : List Char) : r.embed 0 ds = (Context.outer r.name).idle ds r.line := by
  unfold missing? complaint? at h
  split at h
  · cases h
  split at h
  · cases h
  split at h
  · cases h
  next hm _ hst hq =>
  obtain ⟨hm, htk⟩ := (hr.rested ht).resolve_left hm
  have hq : r.quotes = 0 := Nat.eq_zero_of_not_pos hq
  rw [embed_eq_reader hr ht, hm, htk, context, hst, hq]
  rfl

end Reader

variable {text more name : String}

theorem fault_append {fault : Fault} (hw : WholeLines text.toList)
    (h : (read text name).fault? = some fault) (hi : fault.incomplete = false) (more : String) :
    (read (text ++ more) name).fault? ≠ none := by
  have hr := Reader.lineFed_start hw name
  obtain ⟨fs, e, hl, he, hend⟩ := Reader.exists_end hr
  change (Reader.start text name).rest.2 = some fault at h
  change (Reader.start (text ++ more) name).rest.2 ≠ none
  rw [Reader.start_append]
  rcases hend with ⟨-, hrest⟩ | ⟨hs, -⟩
  · rw [hrest, Option.map_eq_some_iff] at h
    obtain ⟨reason, hm, rfl⟩ := h
    have hc : reason.incomplete = true := Reader.incomplete_of_missing? hm
    exact absurd (hc.symm.trans hi) Bool.noConfusion
  · rcases hl.rest_embed hr 0 more.toList with h | h
    · obtain ⟨fault', hf⟩ := hs.rest_embed he 0 more.toList
      rw [h, hf]
      exact Option.some_ne_none _
    · exact h.2

/-- Whole lines that are read without fault can be read on their own, unless they leave a fault in the
whole text. -/
theorem read_append (hw : WholeLines text.toList) (hm : WholeLines more.toList)
    (h : (read text name).fault? = none) (hall : (read (text ++ more) name).fault? = none) :
    (read (text ++ more) name).forms = (read text name).forms ++ (read more name).forms ∧
      (read more name).fault? = none := by
  have hr := Reader.lineFed_start hw name
  obtain ⟨fs, e, hl, he, hend⟩ := Reader.exists_end hr
  change (Reader.start text name).rest.2 = none at h
  obtain ⟨ht, hrest⟩ := hend.resolve_right fun ⟨_, fault, hrest, _⟩ => by simp [hrest] at h
  have hnone : e.missing? = none := by simpa [hrest] using h
  have hname : e.name = name := hl.name_eq hr
  have hembed : (Reader.start (text ++ more) name).rest =
      (fs ++ (e.embed 0 more.toList).rest.1, (e.embed 0 more.toList).rest.2) := by
    rw [Reader.start_append]
    refine (hl.rest_embed hr 0 more.toList).resolve_right fun hf => hf.2 ?_
    rw [← Reader.start_append]
    exact hall
  rw [Reader.embed_eq_outer he ht hnone, hname] at hembed
  obtain ⟨hline, hline'⟩ := Reader.rest_outer_line hm name e.line 1
  have hmore : Reader.start more name = (Context.outer name).idle more.toList 1 := rfl
  refine ⟨?_, ?_⟩
  · simp only [read, hembed, hrest, hmore, hline]
  · simp only [read, hembed] at hall
    exact hline'.mp hall

end LazyLisp.Source
