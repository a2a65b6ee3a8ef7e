import LazyLisp.Proofs.Source.Endings

/-!
The reader in turns. Each turn takes one character and may hand it back, but only while no other character
waits, else the turn is refused. A digit at the beginning of a number is handed back at first, and read in
the turn after. Main statements: `turn_eq`, that no turn is refused and what it comes to, and
`turned_step`, how the reader after a step stands to the one before.
-/

namespace LazyLisp.Source

theorem not_digit_of_endsSymbol {c : Char} (h : endsSymbol c = true) : c.isDigit = false := by
  unfold endsSymbol at h
  split at h
  case h_16 => exact Context.not_digit_of_isBlank h
  all_goals rfl

theorem Numeral.exists_push_start {c : Char} (h : c.isDigit = true) : ∃ n, (start false).push c = .ok n := by
  have hd := digitIn?_of_isDigit h
  have hlt : c.toNat - '0'.toNat < 10 := Text.digitIn?_lt hd
  have hf : fits ((start false).extended (c.toNat - '0'.toNat)) = true := by
    rw [fits_iff]
    simp only [extended, start, Int64.toInt_zero]
    simp only [Bool.false_eq_true, if_false]
    omega
  exact ⟨_, by rw [push, show (start false).base = 10 from rfl, hd]; exact if_pos hf⟩

namespace Reader

def handBack (r : Reader) (c : Char) (next : Reader → Step) : Option Step :=
  if r.cursor.held = none then some (next (r.hold c)) else none

def turnNumber (r : Reader) (n : Numeral) (c : Char) : Option Step :=
  if Text.isSeparator c then r.handBack c (·.emitNumber n) else some (r.inNumber n c)

def turnRadixNumber (r : Reader) (n : Numeral) (c : Char) : Option Step :=
  if Text.isSeparator c then r.handBack c (·.emitNumber n) else some (r.inRadixNumber n c)

def turnKeyword (r : Reader) (c : Char) : Option Step :=
  if Text.isKeywordChar c ∨ (c = ':' ∧ r.token = [':']) then some (.more (r.push c))
  else if c = '/' ∧ r.keywordComplete then some (.more { r.push c with mode := .qualifiedKeyword })
  else if r.keywordComplete then r.handBack c emitKeyword
  else some (.fault .invalidKeyword r)

def turnQualifiedKeyword (r : Reader) (c : Char) : Option Step :=
  if Text.isKeywordChar c then some (.more (r.push c))
  else if r.nameComplete then r.handBack c emitKeyword
  else some (.fault .invalidKeyword r)

def turnPlain (r : Reader) (c : Char) : Option Step :=
  if r.token = [] ∧ c.isDigit then r.handBack c fun r => .more { r with mode := .number (.start false) }
  else some (r.plain c)

def turnNormal (r : Reader) (c : Char) : Option Step :=
  if r.token ≠ [] ∧ endsSymbol c then
    match r.emitToken with
    | .more r => r.turnPlain c
    | .form f r => r.handBack c (.form f)
    | .fault reason r => some (.fault reason r)
  else r.turnPlain c

def turn (r : Reader) (c : Char) : Option Step :=
  match r.mode with
  | .normal => r.turnNormal c
  | .character => some (r.inCharacter c)
  | .string => some (r.inString c)
  | .comment => some (r.inComment c)
  | .keyword => r.turnKeyword c
  | .qualifiedKeyword => r.turnQualifiedKeyword c
  | .number n => r.turnNumber n c
  | .decimal => some (.fault .decimalsNotImplemented r)
  | .radixNumber n => r.turnRadixNumber n c

def BeginsNumber (r : Reader) (c : Char) : Prop := r.mode = .normal ∧ r.token = [] ∧ c.isDigit = true

instance (r : Reader) (c : Char) : Decidable (r.BeginsNumber c) :=
  inferInstanceAs (Decidable (_ ∧ _ ∧ _))

variable {r : Reader} {c : Char}

theorem handBack_eq (hh : r.cursor.held = none) (c : Char) (next : Reader → Step) :
    r.handBack c next = some (next (r.hold c)) := if_pos hh

theorem turnNumber_eq (hh : r.cursor.held = none) (n : Numeral) (c : Char) :
    r.turnNumber n c = some (r.inNumber n c) := by
  unfold turnNumber
  split
  · next hc =>
    have hd : c.isDigit = false := (Bool.or_eq_false_iff.mp (Context.not_alphanum_of_isSeparator hc)).2
    have hne (d : Char) (hsep : Text.isSeparator d = false) : c ≠ d := by
      rintro rfl
      rw [hsep] at hc
      cases hc
    rw [handBack_eq hh, inNumber, if_neg (by simp [hd]), if_neg (hne '.' rfl),
      if_neg (not_or_intro (hne 'r' rfl) (hne 'R' rfl)),
      if_neg (fun h => not_or_intro (hne 'x' rfl) (hne 'X' rfl) h.1), if_pos hc]
  · rfl

theorem turnRadixNumber_eq (hh : r.cursor.held = none) (n : Numeral) (c : Char) :
    r.turnRadixNumber n c = some (r.inRadixNumber n c) := by
  unfold turnRadixNumber
  split
  · next hc =>
    rw [handBack_eq hh, inRadixNumber, if_neg (by simp [Context.not_alphanum_of_isSeparator hc]), if_pos hc]
  · rfl

theorem turnKeyword_eq (hh : r.cursor.held = none) (c : Char) : r.turnKeyword c = some (r.inKeyword c) := by
  simp only [turnKeyword, inKeyword, handBack_eq hh, apply_ite some]

theorem turnQualifiedKeyword_eq (hh : r.cursor.held = none) (c : Char) :
    r.turnQualifiedKeyword c = some (r.inQualifiedKeyword c) := by
  simp only [turnQualifiedKeyword, inQualifiedKeyword, handBack_eq hh, apply_ite some]

theorem turnNormal_of_begins (hh : r.cursor.held = none) (h : r.BeginsNumber c) :
    r.turnNormal c = some (.more { r.hold c with mode := .number (.start false) }) := by
  rw [turnNormal, if_neg (fun ht => ht.1 h.2.1), turnPlain, if_pos h.2, handBack_eq hh]

theorem turnNormal_eq (hh : r.cursor.held = none) (hm : r.mode = .normal) (h : ¬ r.BeginsNumber c) :
    r.turnNormal c = some (r.inNormal c) := by
  unfold turnNormal inNormal
  split
  · next ht =>
    have hd := not_digit_of_endsSymbol ht.2
    cases he : r.emitToken with
    | more t => exact if_neg (by simp [hd])
    | form f t =>
      have hc : t.cursor = r.cursor := cursor_emit (r := r.cleared) (by rw [← emitToken, he]; rfl)
      exact handBack_eq (by rw [hc, hh]) c _
    | fault reason t => rfl
  · exact if_neg fun hd => h ⟨hm, hd⟩

theorem turn_eq (hh : r.cursor.held = none) (c : Char) :
    r.turn c = some (if r.BeginsNumber c then .more { r.hold c with mode := .number (.start false) }
      else r.step c) := by
  by_cases h : r.BeginsNumber c
  · rw [if_pos h, turn, h.1]
    exact turnNormal_of_begins hh h
  · rw [if_neg h, turn, step]
    cases hm : r.mode with
    | normal => exact turnNormal_eq hh hm h
    | character | string | comment | decimal => rfl
    | keyword => exact turnKeyword_eq hh c
    | qualifiedKeyword => exact turnQualifiedKeyword_eq hh c
    | number n => exact turnNumber_eq hh n c
    | radixNumber n => exact turnRadixNumber_eq hh n c

theorem outcome_begins (hh : r.cursor.held = none) (h : r.BeginsNumber c) :
    outcome (.more { r.hold c with mode := .number (.start false) }) = outcome (r.step c) := by
  obtain ⟨hm, ht, hd⟩ := h
  obtain ⟨n, hn⟩ := Numeral.exists_push_start hd
  have htake : { r.hold c with mode := .number (.start false) }.cursor.take? = some (c, r.cursor) :=
    Cursor.take?_hold r.cursor c hh
  rw [outcome, advance_of_take? htake, Context.step_digit hm ht hd]
  change outcome (inNumber _ (.start false) c) = _
  simp only [inNumber, hd, if_true, pushDigit, hn]
  rfl

def stage (r : Reader) : Nat :=
  match r.mode with
  | .normal => if r.token = [] then 1 else 2
  | .number n | .radixNumber n => if n.digits = 0 then 0 else 2
  | _ => 2

theorem stage_le (r : Reader) : r.stage ≤ 2 := by
  unfold stage
  split <;> first | split <;> omega | omega

theorem stage_of_idle (hm : r.mode = .normal) (ht : r.token = []) : r.stage = 1 := by
  simp only [stage, hm, ht, if_true]

/-- The reader `t` has left the character `c` that the reader `r` took, or has handed it back at the end
of a token, or before a number. -/
def Proceeds (r : Reader) (c : Char) (t : Reader) : Prop :=
  r.cursor.Reaches t.cursor ∨ t.cursor = r.cursor.hold c ∧ t.stage < r.stage

def Tidy (r : Reader) : Prop := r.mode = .character ∨ r.mode = .comment → r.token = []

structure Continues (r : Reader) (c : Char) (t : Reader) : Prop where
  proceeds : r.Proceeds c t
  tidy : t.Tidy
  opens : t.mode = .string → r.mode = .string ∨ t.token = []

end Reader

def Step.Turned (r : Reader) (c : Char) : Step → Prop
  | .more t => r.Continues c t
  | .form _ t => r.Proceeds c t ∧ t.mode = .normal ∧ t.token = []
  | .fault _ t => r.cursor.Reaches t.cursor ∨ t.cursor = r.cursor.hold c

namespace Reader

variable {r t : Reader} {c : Char} {n : Numeral}

theorem tidy_of_normal (hm : r.mode = .normal) : r.Tidy := by
  rintro (h | h) <;> rw [hm] at h <;> cases h

theorem continues_of_not_mem (h : r.Proceeds c t) (hm : t.mode ∉ [.character, .comment, .string]) :
    r.Continues c t := by
  simp only [List.mem_cons, List.not_mem_nil, or_false, not_or] at hm
  exact ⟨h, fun ht => absurd ht (not_or_intro hm.1 hm.2.1), fun ht => absurd ht hm.2.2⟩

theorem continues_of_normal (h : r.Proceeds c t) (hm : t.mode = .normal) : r.Continues c t :=
  continues_of_not_mem h (by simp [hm])

theorem continues_of_token_eq_nil (h : r.Proceeds c t) (ht : t.token = []) : r.Continues c t :=
  ⟨h, fun _ => ht, fun _ => .inr ht⟩

theorem proceeds_of_cursor_eq (h : t.cursor = r.cursor) : r.Proceeds c t := .inl (h ▸ .here r.cursor)

theorem proceeds_of_take? {s : Cursor} {d : Char} (hs : r.cursor.take? = some (d, s)) (h : t.cursor = s) :
    r.Proceeds c t := .inl (h ▸ .take hs (.here s))

theorem turned_emit (h : r.Proceeds c t) (hm : t.mode = .normal) (ht : t.token = []) (f : Form) :
    (t.emit f).Turned r c := by
  unfold emit
  split
  · exact continues_of_normal h hm
  · exact ⟨h, hm, ht⟩

theorem kept_of_emit {f : Form} (h : (r.emit f).reader? = some t) :
    t.cursor = r.cursor ∧ t.mode = r.mode ∧ t.token = r.token := by
  unfold emit at h
  split at h <;> cases h <;> exact ⟨rfl, rfl, rfl⟩

theorem turned_closeBracket (hm : r.mode = .normal) (ht : r.token = []) : (r.closeBracket c).Turned r c := by
  have here : r.cursor.Reaches r.cursor ∨ r.cursor = r.cursor.hold c := .inl (.here _)
  unfold closeBracket
  split
  · exact here
  split
  · exact here
  split
  · exact here
  split
  · refine turned_emit ?_ ?_ ?_ _
    · exact proceeds_of_cursor_eq rfl
    · exact hm
    · exact ht
  · exact here

theorem turned_pushDigit {mode : Numeral → Mode} (hmode : mode = .number ∨ mode = .radixNumber) :
    (r.pushDigit n c mode).Turned r c := by
  unfold pushDigit
  split
  · refine continues_of_not_mem (proceeds_of_cursor_eq rfl) ?_
    rcases hmode with rfl | rfl <;> simp
  · exact .inl (.here _)
  · exact .inl (.here _)

theorem turned_emit_hold (h : r.stage = 2) (f : Form) : ((r.hold c).cleared.emit f).Turned r c := by
  refine turned_emit (.inr ⟨rfl, ?_⟩) rfl rfl f
  rw [stage_of_idle (r := (r.hold c).cleared) rfl rfl, h]
  exact Nat.one_lt_two

theorem turned_emitNumber (h : n.digits ≠ 0 → r.stage = 2) : ((r.hold c).emitNumber n).Turned r c := by
  unfold emitNumber
  split
  · exact .inr rfl
  · next hn => exact turned_emit_hold (h hn) _

theorem turned_inNumber (h : r.mode = .number n ∨ c.isDigit = true) : (r.inNumber n c).Turned r c := by
  unfold inNumber
  split
  · exact turned_pushDigit (.inl rfl)
  next hd =>
  have hm : r.mode = .number n := h.resolve_right hd
  split
  · exact continues_of_not_mem (proceeds_of_cursor_eq rfl) (by simp)
  split
  · split
    · exact .inl (.here _)
    · exact continues_of_not_mem (proceeds_of_cursor_eq rfl) (by simp)
  split
  · exact continues_of_not_mem (proceeds_of_cursor_eq rfl) (by simp)
  split
  · refine turned_emitNumber fun hn => ?_
    simp only [stage, hm, hn, if_false]
  · exact .inl (.here _)

theorem turned_inRadixNumber (hm : r.mode = .radixNumber n) : (r.inRadixNumber n c).Turned r c := by
  unfold inRadixNumber
  split
  · exact turned_pushDigit (.inr rfl)
  split
  · refine turned_emitNumber fun hn => ?_
    simp only [stage, hm, hn, if_false]
  · exact .inl (.here _)

theorem turned_inKeyword (hm : r.mode = .keyword) : (r.inKeyword c).Turned r c := by
  unfold inKeyword
  split
  · exact continues_of_not_mem (proceeds_of_cursor_eq rfl) (by simp [push, hm])
  split
  · exact continues_of_not_mem (proceeds_of_cursor_eq rfl) (by simp)
  split
  · exact turned_emit_hold (by simp only [stage, hm]) _
  · exact .inl (.here _)

theorem turned_inQualifiedKeyword (hm : r.mode = .qualifiedKeyword) : (r.inQualifiedKeyword c).Turned r c := by
  unfold inQualifiedKeyword
  split
  · exact continues_of_not_mem (proceeds_of_cursor_eq rfl) (by simp [push, hm])
  split
  · exact turned_emit_hold (by simp only [stage, hm]) _
  · exact .inl (.here _)

theorem turned_plain (hm : r.mode = .normal) (ht : endsSymbol c = true → r.token = []) :
    (r.plain c).Turned r c := by
  have same {t : Reader} (hc : t.cursor = r.cursor) (hm : t.mode = .normal) : r.Continues c t :=
    continues_of_normal (proceeds_of_cursor_eq hc) hm
  unfold plain
  split
  · exact same rfl hm
  split
  case h_4 | h_5 | h_6 => exact turned_closeBracket hm (ht rfl)
  case h_7 =>
    refine same r.cursor_quoteMark ?_
    unfold quoteMark
    split <;> exact hm
  case h_8 | h_9 | h_10 | h_11 => exact turned_emit (proceeds_of_cursor_eq rfl) hm (ht rfl) _
  case h_12 =>
    split
    · next s hs =>
      refine turned_emit ?_ ?_ ?_ _
      · exact proceeds_of_take? hs rfl
      · exact hm
      · exact ht rfl
    · exact turned_emit (proceeds_of_cursor_eq rfl) hm (ht rfl) _
  case h_13 | h_14 | h_15 => exact continues_of_token_eq_nil (proceeds_of_cursor_eq rfl) (ht rfl)
  case h_16 =>
    split
    · exact continues_of_not_mem (proceeds_of_cursor_eq rfl) (by simp)
    · exact same rfl hm
  case h_17 =>
    split
    · next hd => exact turned_inNumber (.inr hd.2)
    · split
      · exact continues_of_not_mem (proceeds_of_cursor_eq rfl) (by simp)
      · exact same rfl hm
  all_goals exact same rfl hm

theorem turned_of_stage_le {q : Reader} {st : Step} (h : st.Turned q c) (hc : q.cursor = r.cursor)
    (hs : q.stage ≤ r.stage) (hm : q.mode = r.mode) : st.Turned r c := by
  have proceeds {t : Reader} (hp : q.Proceeds c t) : r.Proceeds c t := by
    rcases hp with hp | ⟨hp, hlt⟩
    · exact .inl (hc ▸ hp)
    · exact .inr ⟨hc ▸ hp, Nat.lt_of_lt_of_le hlt hs⟩
  cases st with
  | more t => exact ⟨proceeds h.proceeds, h.tidy, fun hs => hm ▸ h.opens hs⟩
  | form f t => exact ⟨proceeds h.1, h.2⟩
  | fault reason t =>
    rcases h with h | h
    · exact .inl (hc ▸ h)
    · exact .inr (hc ▸ h)

theorem turned_inNormal (hm : r.mode = .normal) : (r.inNormal c).Turned r c := by
  unfold inNormal
  split
  · next ht =>
    have hstage : r.stage = 2 := by simp only [stage, hm, ht.1, if_false]
    have flushed {t : Reader} (he : r.emitToken.reader? = some t) :
        t.cursor = r.cursor ∧ t.mode = .normal ∧ t.token = [] := kept_of_emit (r := r.cleared) he
    split
    · next t he =>
      obtain ⟨hc, htm, htk⟩ := flushed (by rw [he]; rfl)
      refine turned_of_stage_le (turned_plain htm fun _ => htk) hc ?_ (htm.trans hm.symm)
      rw [stage_of_idle htm htk, hstage]
      exact Nat.le_succ 1
    · next f t he =>
      obtain ⟨hc, htm, htk⟩ := flushed (by rw [he]; rfl)
      refine ⟨.inr ⟨congrArg (·.hold c) hc, ?_⟩, htm, htk⟩
      rw [stage_of_idle (r := t.hold c) htm htk, hstage]
      exact Nat.one_lt_two
    · next reason t he =>
      unfold emitToken emit at he
      split at he <;> cases he
  · next h =>
    exact turned_plain hm fun he => Decidable.byContradiction fun ht => h ⟨ht, he⟩

theorem turned_inCharacter (ht : r.token = []) : (r.inCharacter c).Turned r c := by
  have hreach := Cursor.reaches_takeCharLiteral c r.cursor
  unfold inCharacter
  split
  · next hs =>
    rw [hs] at hreach
    refine turned_emit (.inl hreach) rfl ?_ _
    exact ht
  · next hs =>
    rw [hs] at hreach
    exact .inl hreach

theorem turned_inString (hm : r.mode = .string) : (r.inString c).Turned r c := by
  unfold inString
  split
  · exact turned_emit (t := r.cleared) (proceeds_of_cursor_eq (r := r) rfl) rfl rfl _
  split
  · split
    · next s hs =>
      exact ⟨proceeds_of_take? hs rfl, by simp [Tidy, push, hm], fun _ => .inl hm⟩
    · exact .inl (.here _)
  · exact ⟨proceeds_of_cursor_eq rfl, by simp [Tidy, push, hm], fun _ => .inl hm⟩

theorem turned_inComment (ht : r.token = []) : (r.inComment c).Turned r c := by
  unfold inComment
  split
  · exact continues_of_token_eq_nil (proceeds_of_cursor_eq rfl) ht
  split
  · split
    · next s hs => exact continues_of_token_eq_nil (proceeds_of_take? hs rfl) ht
    · exact continues_of_token_eq_nil (proceeds_of_cursor_eq rfl) ht
  · exact continues_of_token_eq_nil (proceeds_of_cursor_eq rfl) ht

theorem turned_step (h : r.Tidy) (c : Char) : (r.step c).Turned r c := by
  unfold step
  cases hm : r.mode with
  | normal => exact turned_inNormal hm
  | character => exact turned_inCharacter (h (.inl hm))
  | string => exact turned_inString hm
  | comment => exact turned_inComment (h (.inr hm))
  | keyword => exact turned_inKeyword hm
  | qualifiedKeyword => exact turned_inQualifiedKeyword hm
  | number n => exact turned_inNumber (.inl hm)
  | decimal => exact .inl (.here _)
  | radixNumber n => exact turned_inRadixNumber hm

theorem turned_begins (h : r.BeginsNumber c) :
    (Step.more { r.hold c with mode := .number (.start false) }).Turned r c := by
  have hstage : r.stage = 1 := stage_of_idle h.1 h.2.1
  refine continues_of_not_mem (.inr ⟨rfl, ?_⟩) (by simp)
  rw [hstage]
  exact Nat.zero_lt_one

theorem exists_turn (hh : r.cursor.held = none) (h : r.Tidy) (c : Char) :
    ∃ st, r.turn c = some st ∧ st.Turned r c ∧ outcome st = outcome (r.step c) := by
  rw [turn_eq hh]
  by_cases hb : r.BeginsNumber c
  · rw [if_pos hb]
    exact ⟨_, rfl, turned_begins hb, outcome_begins hh hb⟩
  · rw [if_neg hb]
    exact ⟨_, rfl, turned_step h c, rfl⟩

end Reader

end LazyLisp.Source
