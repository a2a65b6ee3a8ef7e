import LazyLisp.Proofs.Source.Readable

namespace LazyLisp.Source

/-- A text of whole lines is empty or ends with a line end. -/
def WholeLines (cs : List Char) : Prop := ∀ c ∈ cs.getLast?, c = '\n'

namespace WholeLines

variable {c : Char} {cs ds : List Char}

theorem of_suffix (h : WholeLines cs) (hs : ds <:+ cs) : WholeLines ds := by
  obtain ⟨bs, rfl⟩ := hs
  intro c hc
  refine h c ?_
  rw [List.getLast?_append, Option.mem_def.mp hc]
  rfl

theorem ne_nil (h : WholeLines (c :: cs)) (hc : c ≠ '\n') : cs ≠ [] := by
  rintro rfl
  exact hc (h c (by simp))

theorem append (hc : WholeLines cs) (hd : WholeLines ds) : WholeLines (cs ++ ds) := by
  intro c h
  rw [List.getLast?_append, Option.mem_def, Option.or_eq_some_iff] at h
  rcases h with h | ⟨-, h⟩
  · exact hd c h
  · exact hc c h

theorem append_newline (text : String) : WholeLines (text ++ "\n").toList := by
  intro c hc
  simpa [eq_comm] using hc

end WholeLines

namespace Cursor

variable {s t : Cursor} {c : Char}

def text (s : Cursor) : List Char := s.held.toList ++ s.rest

theorem text_of_take? (h : s.take? = some (c, t)) : s.text = c :: t.text ∧ t.held = none := by
  obtain ⟨rest, held, line⟩ := s
  cases held with
  | some d =>
    simp only [take?, Option.some.injEq, Prod.mk.injEq] at h
    obtain ⟨rfl, rfl⟩ := h
    exact ⟨rfl, rfl⟩
  | none =>
    cases rest with
    | nil => simp [take?] at h
    | cons d rest =>
      simp only [take?, Option.some.injEq, Prod.mk.injEq] at h
      obtain ⟨rfl, rfl⟩ := h
      exact ⟨rfl, rfl⟩

theorem text_eq_nil_iff : s.text = [] ↔ s.take? = none := by
  obtain ⟨rest, held, line⟩ := s
  cases held <;> cases rest <;> simp [text, take?]

theorem exists_take?_of_text_ne_nil (h : s.text ≠ []) : ∃ c t, s.take? = some (c, t) := by
  rw [ne_eq, text_eq_nil_iff] at h
  obtain ⟨⟨c, t⟩, ht⟩ := Option.ne_none_iff_exists'.mp h
  exact ⟨c, t, ht⟩

theorem text_hold (h : s.held = none) : (s.hold c).text = c :: s.text := by
  simp [text, hold, h]

theorem atSeparator_of_text_eq_nil (h : s.text = []) : s.atSeparator = true := by
  have hp : s.peek? = none := (peek?_eq_none_iff s).mpr (text_eq_nil_iff.mp h)
  simp [atSeparator, hp]

/-- What a scan inside whole lines comes to: it stops before the last line end, or at a character that
cannot stand there. -/
def StopsShort {α : Type} (s : Cursor) : Scan α → Prop
  | .ok (_, t) => t.text <:+ s.text ∧ t.text ≠ []
  | .error (reason, _) => reason.incomplete = false

theorem StopsShort.of_take? {α : Type} {scan : Scan α} (h : s.take? = some (c, t))
    (ht : t.StopsShort scan) : s.StopsShort scan := by
  rcases scan with ⟨reason, u⟩ | ⟨v, u⟩
  · exact ht
  · refine ⟨ht.1.trans ?_, ht.2⟩
    rw [(text_of_take? h).1]
    exact List.suffix_cons _ _

theorem digitIn?_newline (base : Nat) : Text.digitIn? base '\n' = none := rfl

theorem stopsShort_takeCode (radix : Nat) {invalid : Reason} (hi : invalid.incomplete = false)
    (count code : Nat) (hw : WholeLines s.text) (hs : s.text ≠ []) :
    s.StopsShort (takeCode radix invalid count code s) := by
  induction count generalizing code s with
  | zero => exact ⟨List.suffix_rfl, hs⟩
  | succ count ih =>
    obtain ⟨c, t, ht⟩ := exists_take?_of_text_ne_nil hs
    have hst := (text_of_take? ht).1
    simp only [takeCode, ht]
    split
    · next d hd =>
      have hc : c ≠ '\n' := by
        rintro rfl
        simp [digitIn?_newline] at hd
      rw [hst] at hw
      exact (ih _ (hw.of_suffix (List.suffix_cons _ _)) (hw.ne_nil hc)).of_take? ht
    · exact hi

theorem stopsShort_takeSpelling {spelling : List Char} (hn : '\n' ∉ spelling) (hw : WholeLines s.text)
    (hs : s.text ≠ []) : s.StopsShort (takeSpelling spelling s) := by
  induction spelling generalizing s with
  | nil => exact ⟨List.suffix_rfl, hs⟩
  | cons d spelling ih =>
    obtain ⟨c, t, ht⟩ := exists_take?_of_text_ne_nil hs
    have hst := (text_of_take? ht).1
    simp only [List.mem_cons, not_or] at hn
    simp only [takeSpelling, ht]
    split
    · next hc =>
      rw [hst] at hw
      have hne : c ≠ '\n' := fun h => hn.1 (h ▸ hc)
      exact (ih hn.2 (hw.of_suffix (List.suffix_cons _ _)) (hw.ne_nil hne)).of_take? ht
    · rfl

theorem stopsShort_takeCoded (radix count : Nat) {invalid : Reason} (hi : invalid.incomplete = false)
    (hw : WholeLines s.text) (hs : s.text ≠ []) : s.StopsShort (takeCoded radix count invalid s) := by
  have hcode := stopsShort_takeCode radix hi count 0 hw hs
  unfold takeCoded
  split
  · next he => rwa [he] at hcode
  · next he =>
    rw [he] at hcode
    split
    · exact hcode
    · exact hi

theorem newline_not_mem_spelling (n : Text.CharName) : '\n' ∉ n.spelling.tail := by
  cases n <;> decide

theorem stopsShort_takeNamed (c : Char) (hw : WholeLines s.text) (hs : s.text ≠ []) :
    s.StopsShort (takeNamed c s) := by
  unfold takeNamed
  split
  · rfl
  · next n _ =>
    have hspell := stopsShort_takeSpelling (newline_not_mem_spelling n) hw hs
    split
    · next he => rwa [he] at hspell
    · next he => rwa [he] at hspell

def takeLong (c : Char) (s : Cursor) : Scan Char :=
  if c = 'u' then takeCoded 16 4 .invalidUnicode s
  else if c = 'o' then takeCoded 8 3 .invalidOctal s
  else takeNamed c s

theorem takeCharLiteral_eq (c : Char) (s : Cursor) : takeCharLiteral c s =
    if s.atSeparator then .ok (c, s)
    else match takeLong c s with
      | .error e => .error e
      | .ok (value, t) => if t.atSeparator then .ok (value, t) else .error (.unsupportedCharacter, t) :=
  rfl

theorem stopsShort_takeLong (c : Char) (hw : WholeLines s.text) (hs : s.text ≠ []) :
    s.StopsShort (takeLong c s) := by
  unfold takeLong
  split
  · exact stopsShort_takeCoded 16 4 rfl hw hs
  split
  · exact stopsShort_takeCoded 8 3 rfl hw hs
  · exact stopsShort_takeNamed c hw hs

theorem takeCharLiteral_cases (c : Char) (hw : WholeLines s.text) :
    takeCharLiteral c s = .ok (c, s) ∨ s.StopsShort (takeCharLiteral c s) := by
  rw [takeCharLiteral_eq]
  split
  · exact .inl rfl
  next hsep =>
  have hs : s.text ≠ [] := fun h => hsep (atSeparator_of_text_eq_nil h)
  have hlong := stopsShort_takeLong c hw hs
  refine .inr ?_
  split
  · next he => rwa [he] at hlong
  · next he =>
    rw [he] at hlong
    split
    · exact hlong
    · rfl

end Cursor

namespace Reader

def Rested (r : Reader) : Prop := r.mode = .string ∨ r.mode = .normal ∧ r.token = []

structure Follows (r : Reader) (c : Char) (t : Reader) : Prop where
  kept : t.name = r.name ∧ t.failed = r.failed
  text : t.cursor.text <:+ c :: r.cursor.text
  rested : t.cursor.text = [] → t.Rested

end Reader

def Step.Follows (r : Reader) (c : Char) : Step → Prop
  | .more t => r.Follows c t
  | .form _ t => r.Follows c t
  | .fault reason _ => reason.incomplete = false

theorem Step.Follows.of_eq {r q : Reader} {c : Char} {st : Step} (h : st.Follows q c)
    (hc : q.cursor = r.cursor) (hk : q.name = r.name ∧ q.failed = r.failed) : st.Follows r c := by
  cases st with
  | more t => exact ⟨⟨h.kept.1.trans hk.1, h.kept.2.trans hk.2⟩, hc ▸ h.text, h.rested⟩
  | form f t => exact ⟨⟨h.kept.1.trans hk.1, h.kept.2.trans hk.2⟩, hc ▸ h.text, h.rested⟩
  | fault reason t => exact h

namespace Reader

variable {r t : Reader} {c : Char}

theorem follows_of_cursor_eq (hw : WholeLines (c :: r.cursor.text)) (ht : t.cursor = r.cursor)
    (hk : t.name = r.name ∧ t.failed = r.failed) (hr : c = '\n' → t.Rested) : r.Follows c t := by
  refine ⟨hk, ht ▸ List.suffix_cons _ _, fun h => hr (Decidable.byContradiction fun hc => ?_)⟩
  exact hw.ne_nil hc (ht ▸ h)

theorem follows_of_take? {s : Cursor} {d : Char} (hs : r.cursor.take? = some (d, s))
    (ht : t.cursor = s) (hk : t.name = r.name ∧ t.failed = r.failed) (hr : s.text = [] → t.Rested) :
    r.Follows c t := by
  refine ⟨hk, ?_, fun h => hr (ht ▸ h)⟩
  rw [ht, (Cursor.text_of_take? hs).1]
  exact (List.suffix_cons d _).trans (List.suffix_cons c _)

theorem follows_hold (hh : r.cursor.held = none) (ht : t.cursor = r.cursor.hold c)
    (hk : t.name = r.name ∧ t.failed = r.failed) : r.Follows c t := by
  have htext : t.cursor.text = c :: r.cursor.text := by rw [ht, Cursor.text_hold hh]
  refine ⟨hk, htext ▸ List.suffix_rfl, fun h => ?_⟩
  rw [htext] at h
  cases h

theorem follows_emit (h : r.Follows c t) (f : Form) : (t.emit f).Follows r c := by
  unfold emit
  split <;> exact ⟨h.kept, h.text, h.rested⟩

theorem follows_closeBracket (hw : WholeLines (c :: r.cursor.text)) (hc : c ≠ '\n') :
    (r.closeBracket c).Follows r c := by
  unfold closeBracket
  split
  · rfl
  split
  · rfl
  split
  · rfl
  split
  · refine follows_emit ?_ _
    exact follows_of_cursor_eq hw rfl ⟨rfl, rfl⟩ fun h => absurd h hc
  · rfl

theorem follows_pushDigit (hw : WholeLines (c :: r.cursor.text)) (hc : c ≠ '\n') (n : Numeral)
    (mode : Numeral → Mode) : (r.pushDigit n c mode).Follows r c := by
  unfold pushDigit
  split
  · exact follows_of_cursor_eq hw rfl ⟨rfl, rfl⟩ fun h => absurd h hc
  · rfl
  · rfl

theorem follows_emitNumber (hh : r.cursor.held = none) (n : Numeral) :
    ((r.hold c).emitNumber n).Follows r c := by
  unfold emitNumber
  split
  · rfl
  · refine follows_emit ?_ _
    exact follows_hold hh rfl ⟨rfl, rfl⟩

theorem follows_emitKeyword (hh : r.cursor.held = none) : ((r.hold c).emitKeyword).Follows r c := by
  refine follows_emit ?_ _
  exact follows_hold hh rfl ⟨rfl, rfl⟩

theorem follows_inNumber (hw : WholeLines (c :: r.cursor.text)) (hh : r.cursor.held = none)
    (n : Numeral) : (r.inNumber n c).Follows r c := by
  unfold inNumber
  split
  · next hd => exact follows_pushDigit hw (by rintro rfl; simp at hd) n _
  split
  · next hd => exact follows_of_cursor_eq hw rfl ⟨rfl, rfl⟩ (by rintro rfl; simp at hd)
  split
  · next hd =>
    split
    · rfl
    · exact follows_of_cursor_eq hw rfl ⟨rfl, rfl⟩ (by rintro rfl; simp at hd)
  split
  · next hd => exact follows_of_cursor_eq hw rfl ⟨rfl, rfl⟩ (by rintro rfl; simp at hd)
  split
  · exact follows_emitNumber hh n
  · rfl

theorem follows_inRadixNumber (hw : WholeLines (c :: r.cursor.text)) (hh : r.cursor.held = none)
    (n : Numeral) : (r.inRadixNumber n c).Follows r c := by
  unfold inRadixNumber
  split
  · next hd => exact follows_pushDigit hw (by rintro rfl; simp at hd) n _
  split
  · exact follows_emitNumber hh n
  · rfl

theorem kept_quoteMark (r : Reader) : r.quoteMark.name = r.name ∧ r.quoteMark.failed = r.failed := by
  unfold quoteMark
  split <;> exact ⟨rfl, rfl⟩

theorem endsSymbol_of_isBlank (h : Text.isBlank c = true) : endsSymbol c = true := by
  unfold endsSymbol
  split <;> first | rfl | exact h

theorem follows_plain (hw : WholeLines (c :: r.cursor.text)) (hh : r.cursor.held = none)
    (hm : r.mode = .normal) (ht : endsSymbol c = true → r.token = []) : (r.plain c).Follows r c := by
  unfold plain
  split
  · next hb =>
    exact follows_of_cursor_eq hw rfl ⟨rfl, rfl⟩ fun _ => .inr ⟨hm, ht (endsSymbol_of_isBlank hb)⟩
  next hb =>
  have hc : c ≠ '\n' := by
    rintro rfl
    exact hb rfl
  have same {q : Reader} (hq : q.cursor = r.cursor) (hk : q.name = r.name ∧ q.failed = r.failed) :
      r.Follows c q := follows_of_cursor_eq hw hq hk fun h => absurd h hc
  split
  case h_4 | h_5 | h_6 => exact follows_closeBracket hw hc
  case h_7 => exact same r.cursor_quoteMark r.kept_quoteMark
  case h_8 | h_9 | h_10 | h_11 =>
    refine follows_emit ?_ _
    exact same rfl ⟨rfl, rfl⟩
  case h_12 =>
    split
    · next s hs =>
      refine follows_emit ?_ _
      exact follows_of_take? hs rfl ⟨rfl, rfl⟩ fun _ => .inr ⟨hm, ht rfl⟩
    · refine follows_emit ?_ _
      exact same rfl ⟨rfl, rfl⟩
  case h_16 => split <;> exact same rfl ⟨rfl, rfl⟩
  case h_17 =>
    split
    · exact follows_inNumber hw hh _
    · split <;> exact same rfl ⟨rfl, rfl⟩
  all_goals exact same rfl ⟨rfl, rfl⟩

theorem follows_inNormal (hw : WholeLines (c :: r.cursor.text)) (hh : r.cursor.held = none)
    (hm : r.mode = .normal) : (r.inNormal c).Follows r c := by
  unfold inNormal
  split
  · have hs : r.emitToken = r.cleared.emit (tokenForm r.token.reverse) := rfl
    rw [hs, emit]
    split
    · next h =>
      split at h
      · cases h
        exact (follows_plain (r := { r.cleared with stack := _ }) hw hh rfl fun _ => rfl).of_eq rfl
          ⟨rfl, rfl⟩
      · cases h
    · next h =>
      split at h
      · cases h
      · cases h
        exact follows_hold hh rfl ⟨rfl, rfl⟩
    · next h => split at h <;> cases h
  · next hr =>
    exact follows_plain hw hh hm fun he => Decidable.byContradiction fun ht => hr ⟨ht, he⟩

theorem follows_inCharacter (hw : WholeLines (c :: r.cursor.text)) (ht : r.token = []) :
    (r.inCharacter c).Follows r c := by
  -- The literal may take the last line end, but then the reader is outside all tokens.
  have hlit := Cursor.takeCharLiteral_cases c (hw.of_suffix (List.suffix_cons _ _))
  unfold inCharacter
  rcases hlit with hlit | hlit
  · rw [hlit]
    refine follows_emit ?_ _
    exact follows_of_cursor_eq hw rfl ⟨rfl, rfl⟩ fun _ => .inr ⟨rfl, ht⟩
  · split
    · next value s hs =>
      rw [hs] at hlit
      refine follows_emit ?_ _
      exact ⟨⟨rfl, rfl⟩, hlit.1.trans (List.suffix_cons _ _), fun _ => .inr ⟨rfl, ht⟩⟩
    · next hs => rwa [hs] at hlit

theorem follows_inString (hw : WholeLines (c :: r.cursor.text)) (hm : r.mode = .string) :
    (r.inString c).Follows r c := by
  unfold inString
  split
  · next hc =>
    refine follows_emit ?_ _
    exact follows_of_cursor_eq hw rfl ⟨rfl, rfl⟩ fun _ => .inr ⟨rfl, rfl⟩
  split
  · next hc =>
    split
    · next s hs => exact follows_of_take? hs rfl ⟨rfl, rfl⟩ fun _ => .inl hm
    · next hs =>
      have hne := hw.ne_nil (by simp [hc])
      exact absurd (Cursor.text_eq_nil_iff.mpr hs) hne
  · exact follows_of_cursor_eq hw rfl ⟨rfl, rfl⟩ fun _ => .inl hm

theorem follows_inComment (hw : WholeLines (c :: r.cursor.text)) (ht : r.token = []) :
    (r.inComment c).Follows r c := by
  unfold inComment
  split
  · exact follows_of_cursor_eq hw rfl ⟨rfl, rfl⟩ fun _ => .inr ⟨rfl, ht⟩
  next hc =>
  split
  · split
    · next s hs => exact follows_of_take? hs rfl ⟨rfl, rfl⟩ fun _ => .inr ⟨rfl, ht⟩
    · exact follows_of_cursor_eq hw rfl ⟨rfl, rfl⟩ fun _ => .inr ⟨rfl, ht⟩
  · exact follows_of_cursor_eq hw rfl ⟨rfl, rfl⟩ fun h => absurd h hc

theorem isKeywordChar_newline : Text.isKeywordChar '\n' = false := by decide

theorem follows_inKeyword (hw : WholeLines (c :: r.cursor.text)) (hh : r.cursor.held = none) :
    (r.inKeyword c).Follows r c := by
  unfold inKeyword
  split
  · next hk =>
    refine follows_of_cursor_eq hw rfl ⟨rfl, rfl⟩ ?_
    rintro rfl
    simp [isKeywordChar_newline] at hk
  split
  · next hk => exact follows_of_cursor_eq hw rfl ⟨rfl, rfl⟩ (by rintro rfl; simp at hk)
  split
  · exact follows_emitKeyword hh
  · rfl

theorem follows_inQualifiedKeyword (hw : WholeLines (c :: r.cursor.text)) (hh : r.cursor.held = none) :
    (r.inQualifiedKeyword c).Follows r c := by
  unfold inQualifiedKeyword
  split
  · next hk =>
    refine follows_of_cursor_eq hw rfl ⟨rfl, rfl⟩ ?_
    rintro rfl
    simp [isKeywordChar_newline] at hk
  split
  · exact follows_emitKeyword hh
  · rfl

theorem follows_step (hw : WholeLines (c :: r.cursor.text)) (hh : r.cursor.held = none)
    (ht : UnderWay r.mode r.token (some c)) : (r.step c).Follows r c := by
  unfold step
  split
  · next hm => exact follows_inNormal hw hh hm
  · next hm =>
    rw [hm] at ht
    exact follows_inCharacter hw ht
  · next hm => exact follows_inString hw hm
  · next hm =>
    rw [hm] at ht
    exact follows_inComment hw ht
  · exact follows_inKeyword hw hh
  · exact follows_inQualifiedKeyword hw hh
  · exact follows_inNumber hw hh _
  · rfl
  · exact follows_inRadixNumber hw hh _

structure LineFed (r : Reader) : Prop where
  live : r.failed = false
  sound : r.Sound
  whole : WholeLines r.cursor.text
  rested : r.cursor.text = [] → r.Rested

end Reader

def Step.LineFed : Step → Prop
  | .more t => t.LineFed
  | .form _ t => t.LineFed
  | .fault reason _ => reason.incomplete = false

theorem Step.LineFed.live {st : Step} {t : Reader} (h : st.LineFed) (ht : st.reader? = some t) :
    t.failed = false := by
  cases st with
  | more r =>
    cases ht
    exact Reader.LineFed.live h
  | form f r =>
    cases ht
    exact Reader.LineFed.live h
  | fault reason r => cases ht

namespace Reader

variable {r t e : Reader} {s : Cursor} {c : Char} {fs : List Form} {reason : Reason}

theorem LineFed.whole_of_take? (h : r.LineFed) (ht : r.cursor.take? = some (c, s)) :
    WholeLines (c :: s.text) :=
  (Cursor.text_of_take? ht).1 ▸ h.whole

theorem LineFed.follows (h : r.LineFed) (ht : r.cursor.take? = some (c, s)) :
    ({ r with cursor := s }.step c).Follows { r with cursor := s } c := by
  have hu := underWay_of_take? h.sound ht
  exact follows_step (h.whole_of_take? ht) (Cursor.text_of_take? ht).2 hu

theorem lineFed_step (h : r.LineFed) (ht : r.cursor.take? = some (c, s)) :
    ({ r with cursor := s }.step c).LineFed := by
  have hw := h.whole_of_take? ht
  have hf := h.follows ht
  have hu := underWay_of_take? h.sound ht
  have hs := sound_step (r := { r with cursor := s }) h.sound.items hu
  cases he : { r with cursor := s }.step c with
  | more t =>
    rw [he] at hs hf
    exact ⟨hf.kept.2.trans h.live, hs, hw.of_suffix hf.text, hf.rested⟩
  | form f t =>
    rw [he] at hs hf
    exact ⟨hf.kept.2.trans h.live, hs.2, hw.of_suffix hf.text, hf.rested⟩
  | fault reason t =>
    rw [he] at hf
    exact hf

theorem lineFed_start {text : String} (hw : WholeLines text.toList) (name : String) :
    (start text name).LineFed :=
  ⟨rfl, ⟨by simp [ItemsReadable, start], .inl rfl⟩, hw, fun _ => .inr ⟨rfl, rfl⟩⟩

inductive Leads : Reader → List Form → Reader → Prop
  | here (r : Reader) : Leads r [] r
  | more {r t e : Reader} {s : Cursor} {c : Char} {fs : List Form} :
      r.cursor.take? = some (c, s) → { r with cursor := s }.step c = .more t → Leads t fs e →
      Leads r fs e
  | form {r t e : Reader} {s : Cursor} {c : Char} {f : Form} {fs : List Form} :
      r.cursor.take? = some (c, s) → { r with cursor := s }.step c = .form f t → Leads t fs e →
      Leads r (f :: fs) e

theorem Leads.lineFed (h : Leads r fs e) (hr : r.LineFed) : e.LineFed := by
  induction h with
  | here r => exact hr
  | more ht hs _ ih =>
    have hl := lineFed_step hr ht
    rw [hs] at hl
    exact ih hl
  | form ht hs _ ih =>
    have hl := lineFed_step hr ht
    rw [hs] at hl
    exact ih hl

theorem Leads.name_eq (h : Leads r fs e) (hr : r.LineFed) : e.name = r.name := by
  induction h with
  | here r => rfl
  | more ht hs _ ih =>
    have hl := lineFed_step hr ht
    have hf := hr.follows ht
    rw [hs] at hl hf
    exact (ih hl).trans hf.kept.1
  | form ht hs _ ih =>
    have hl := lineFed_step hr ht
    have hf := hr.follows ht
    rw [hs] at hl hf
    exact (ih hl).trans hf.kept.1

theorem rest_eq_resume (hr : r.LineFed) (ht : r.cursor.take? = some (c, s)) :
    r.rest = resume ({ r with cursor := s }.step c) := by
  rw [rest_eq_onward hr.live, advance_of_take? ht, onward_outcome]
  exact fun t hst => (lineFed_step hr ht).live hst

theorem Leads.rest_eq (h : Leads r fs e) (hr : r.LineFed) : r.rest = (fs ++ e.rest.1, e.rest.2) := by
  induction h with
  | here r => rfl
  | more ht hs _ ih =>
    have hl := lineFed_step hr ht
    rw [hs] at hl
    rw [rest_eq_resume hr ht, hs, resume, ih hl]
  | form ht hs _ ih =>
    have hl := lineFed_step hr ht
    rw [hs] at hl
    rw [rest_eq_resume hr ht, hs, resume, ih hl]
    rfl

def Stuck (r : Reader) : Prop :=
  ∃ c s reason t, r.cursor.take? = some (c, s) ∧ { r with cursor := s }.step c = .fault reason t

theorem exists_leads (hr : r.LineFed) : ∃ fs e, Leads r fs e ∧ (e.cursor.text = [] ∨ e.Stuck) := by
  induction hn : r.weight using Nat.strongRecOn generalizing r with
  | ind n ih =>
    subst hn
    by_cases htext : r.cursor.text = []
    · exact ⟨[], r, .here r, .inl htext⟩
    obtain ⟨c, s, ht⟩ := Cursor.exists_take?_of_text_ne_nil htext
    have hl := lineFed_step hr ht
    have hweight {t : Reader} (hst : ({ r with cursor := s }.step c).reader? = some t) :
        t.weight < r.weight := by
      have h := weight_step hst
      rwa [weight_of_take? ht] at h
    cases hs : { r with cursor := s }.step c with
    | more t =>
      rw [hs] at hl
      obtain ⟨fs, e, he, hend⟩ := ih t.weight (hweight (by rw [hs]; rfl)) hl rfl
      exact ⟨fs, e, .more ht hs he, hend⟩
    | form f t =>
      rw [hs] at hl
      obtain ⟨fs, e, he, hend⟩ := ih t.weight (hweight (by rw [hs]; rfl)) hl rfl
      exact ⟨f :: fs, e, .form ht hs he, hend⟩
    | fault reason t => exact ⟨[], r, .here r, .inr ⟨c, s, reason, t, ht, hs⟩⟩

theorem Stuck.rest_eq (h : r.Stuck) (hr : r.LineFed) :
    ∃ fault : Fault, r.rest = ([], some fault) ∧ fault.incomplete = false := by
  obtain ⟨c, s, reason, t, ht, hs⟩ := h
  have hl := lineFed_step hr ht
  rw [hs] at hl
  refine ⟨⟨t.line, t.name, reason⟩, ?_, hl⟩
  rw [rest_eq_resume hr ht, hs]
  rfl

def missing? (r : Reader) : Option Reason :=
  if r.mode = .string then some .unterminatedString else r.complaint?

theorem rest_of_text_eq_nil (hr : r.LineFed) (ht : r.cursor.text = []) :
    r.rest = ([], r.missing?.map fun reason => ⟨r.line, r.name, reason⟩) := by
  rw [rest_of_end hr.live (Cursor.text_eq_nil_iff.mp ht)]
  rcases hr.rested ht with hm | ⟨hm, htk⟩
  · simp [finish, flush, hm, missing?, onward]
  · have hc : r.cleared = r := by
      obtain ⟨name, cursor, mode, token, stack, quotes, failed⟩ := r
      simp_all [cleared]
    have hf : r.flush = .more r := by
      simp [flush, hm, htk, hc]
    simp only [finish, hf, missing?, hm, reduceCtorEq, if_false]
    cases r.complaint? <;> rfl

theorem incomplete_of_missing? (h : r.missing? = some reason) : reason.incomplete = true := by
  unfold missing? complaint? at h
  split at h
  · cases h
    rfl
  split at h
  · cases h
    rfl
  · split at h <;> cases h
    rfl

/-- How the reading of whole lines ends: with what is missing at their end, or at a character that cannot
stand where it does. -/
theorem exists_end (hr : r.LineFed) : ∃ fs e, Leads r fs e ∧ e.LineFed ∧
    (e.cursor.text = [] ∧ r.rest = (fs, e.missing?.map fun reason => ⟨e.line, e.name, reason⟩) ∨
      e.Stuck ∧ ∃ fault : Fault, r.rest = (fs, some fault) ∧ fault.incomplete = false) := by
  obtain ⟨fs, e, hl, hend⟩ := exists_leads hr
  have he := hl.lineFed hr
  refine ⟨fs, e, hl, he, ?_⟩
  rw [hl.rest_eq hr]
  rcases hend with ht | hs
  · refine .inl ⟨ht, ?_⟩
    simp [rest_of_text_eq_nil he ht]
  · obtain ⟨fault, hf, hi⟩ := hs.rest_eq he
    refine .inr ⟨hs, fault, ?_, hi⟩
    simp [hf]

def context (r : Reader) : Context := ⟨r.name, r.stack, r.quotes⟩

end Reader

end LazyLisp.Source
