import LazyLisp.Source.Reader

namespace LazyLisp.Source

namespace Reader

theorem weight_lt_of_remaining_le {r s : Reader} (h : s.cursor.remaining ≤ r.cursor.remaining) :
    s.weight < r.weight + 3 := by
  unfold weight
  split <;> split <;> omega

theorem weight_lt_of_cursor_eq {r s : Reader} (h : s.cursor = r.cursor) :
    s.weight < r.weight + 3 :=
  weight_lt_of_remaining_le (Nat.le_of_eq (by rw [h]))

theorem weight_cleared (r : Reader) : r.cleared.weight = 3 * r.cursor.remaining := by
  simp [weight, cleared]

theorem weight_emit {r s : Reader} {f : Form} (h : (r.emit f).reader? = some s) :
    s.weight = r.weight := by
  unfold emit at h
  split at h <;> cases h <;> rfl

theorem cursor_emit {r s : Reader} {f : Form} (h : (r.emit f).reader? = some s) :
    s.cursor = r.cursor := by
  unfold emit at h
  split at h <;> cases h <;> rfl

theorem weight_hold_cleared {r : Reader} (h : r.mode ≠ .normal ∨ r.token ≠ []) (c : Char) :
    (r.hold c).cleared.weight < r.weight + 3 := by
  have hc := r.cursor.remaining_hold c
  rw [weight_cleared]
  unfold weight hold
  rcases h with h | h <;> simp only [if_neg h] <;> omega

theorem weight_pushDigit {r s : Reader} {n : Numeral} {c : Char} {mode : Numeral → Mode}
    (h : (r.pushDigit n c mode).reader? = some s) : s.weight < r.weight + 3 := by
  unfold pushDigit at h
  split at h <;> cases h
  exact weight_lt_of_cursor_eq rfl

theorem weight_emitNumber_hold {r s : Reader} {n : Numeral} {c : Char} (hm : r.mode ≠ .normal)
    (h : ((r.hold c).emitNumber n).reader? = some s) : s.weight < r.weight + 3 := by
  unfold emitNumber at h
  split at h
  · cases h
  · rw [weight_emit h]
    exact weight_hold_cleared (.inl hm) c

theorem weight_emitKeyword_hold {r s : Reader} {c : Char} (hm : r.mode ≠ .normal)
    (h : ((r.hold c).emitKeyword).reader? = some s) : s.weight < r.weight + 3 := by
  rw [weight_emit h]
  exact weight_hold_cleared (.inl hm) c

theorem weight_inNumber {r s : Reader} {n : Numeral} {c : Char}
    (hm : r.mode ≠ .normal ∨ c.isDigit = true) (h : (r.inNumber n c).reader? = some s) :
    s.weight < r.weight + 3 := by
  unfold inNumber at h
  split at h
  · exact weight_pushDigit h
  next hd =>
  have hm : r.mode ≠ .normal := hm.resolve_right hd
  split at h
  · cases h
    exact weight_lt_of_cursor_eq rfl
  split at h
  · split at h <;> cases h
    exact weight_lt_of_cursor_eq rfl
  split at h
  · cases h
    exact weight_lt_of_cursor_eq rfl
  split at h
  · exact weight_emitNumber_hold hm h
  · cases h

theorem weight_inRadixNumber {r s : Reader} {n : Numeral} {c : Char} (hm : r.mode ≠ .normal)
    (h : (r.inRadixNumber n c).reader? = some s) : s.weight < r.weight + 3 := by
  unfold inRadixNumber at h
  split at h
  · exact weight_pushDigit h
  split at h
  · exact weight_emitNumber_hold hm h
  · cases h

theorem weight_closeBracket {r s : Reader} {c : Char} (h : (r.closeBracket c).reader? = some s) :
    s.weight < r.weight + 3 := by
  unfold closeBracket at h
  split at h
  · cases h
  split at h
  · cases h
  split at h
  · cases h
  split at h
  · have hc := cursor_emit h
    exact weight_lt_of_cursor_eq hc
  · cases h

theorem cursor_quoteMark (r : Reader) : r.quoteMark.cursor = r.cursor := by
  unfold quoteMark
  split <;> rfl

theorem weight_tilde {r s : Reader}
    (h : (match r.cursor.take? with
      | some ('@', t) => emit { r with cursor := t } (.symbol "~@")
      | _ => r.emit (.symbol "~")).reader? = some s) : s.weight < r.weight + 3 := by
  split at h
  · next t ht =>
    have hr := Cursor.remaining_of_take? ht
    have hc := cursor_emit h
    exact weight_lt_of_remaining_le (by rw [hc]; simp only; omega)
  · exact weight_lt_of_cursor_eq (cursor_emit h)

theorem weight_plain {r s : Reader} {c : Char} (h : (r.plain c).reader? = some s) :
    s.weight < r.weight + 3 := by
  unfold plain at h
  split at h
  · cases h
    omega
  split at h
  case h_4 | h_5 | h_6 => exact weight_closeBracket h
  case h_7 =>
    cases h
    exact weight_lt_of_cursor_eq r.cursor_quoteMark
  case h_8 | h_9 | h_10 | h_11 => exact weight_lt_of_cursor_eq (cursor_emit h)
  case h_12 => exact weight_tilde h
  case h_16 =>
    split at h <;> cases h <;> exact weight_lt_of_cursor_eq rfl
  case h_17 =>
    split at h
    · next hd => exact weight_inNumber (.inr hd.2) h
    · split at h <;> cases h <;> exact weight_lt_of_cursor_eq rfl
  all_goals
    cases h
    exact weight_lt_of_cursor_eq rfl

theorem reader_of_emit_eq_form {r s : Reader} {f g : Form} (h : r.emit f = .form g s) :
    s = { r with quotes := 0 } := by
  unfold emit at h
  split at h <;> cases h
  rfl

theorem weight_inNormal {r s : Reader} {c : Char} (h : (r.inNormal c).reader? = some s) :
    s.weight < r.weight + 3 := by
  unfold inNormal at h
  split at h
  · next ht =>
    split at h
    · next r' he =>
      have hw : r'.weight = r.cleared.weight := weight_emit (by rw [← emitToken, he]; rfl)
      have hs := weight_plain h
      rw [hw, weight_cleared] at hs
      simp only [weight] at hs ⊢
      omega
    · next f r' he =>
      cases h
      rw [reader_of_emit_eq_form he]
      exact weight_hold_cleared (.inr ht.1) c
    · cases h
  · exact weight_plain h

theorem weight_inCharacter {r s : Reader} {c : Char} (h : (r.inCharacter c).reader? = some s) :
    s.weight < r.weight + 3 := by
  unfold inCharacter at h
  split at h
  · next ht =>
    have hc := cursor_emit h
    exact weight_lt_of_remaining_le (hc ▸ Cursor.remaining_takeCharLiteral ht)
  · cases h

theorem weight_inString {r s : Reader} {c : Char} (h : (r.inString c).reader? = some s) :
    s.weight < r.weight + 3 := by
  unfold inString at h
  split at h
  · have hc : s.cursor = r.cleared.cursor := cursor_emit h
    exact weight_lt_of_cursor_eq hc
  split at h
  · split at h
    · next ht =>
      cases h
      have := Cursor.remaining_of_take? ht
      exact weight_lt_of_remaining_le (by simp only [push]; omega)
    · cases h
  · cases h
    exact weight_lt_of_cursor_eq rfl

theorem weight_inComment {r s : Reader} {c : Char} (h : (r.inComment c).reader? = some s) :
    s.weight < r.weight + 3 := by
  unfold inComment at h
  split at h
  · cases h
    exact weight_lt_of_cursor_eq rfl
  split at h
  · split at h
    · next ht =>
      cases h
      have := Cursor.remaining_of_take? ht
      exact weight_lt_of_remaining_le (by simp only; omega)
    · cases h
      exact weight_lt_of_cursor_eq rfl
  · cases h
    exact weight_lt_of_cursor_eq rfl

theorem weight_inKeyword {r s : Reader} {c : Char} (hm : r.mode ≠ .normal)
    (h : (r.inKeyword c).reader? = some s) : s.weight < r.weight + 3 := by
  unfold inKeyword at h
  split at h
  · cases h
    exact weight_lt_of_cursor_eq rfl
  split at h
  · cases h
    exact weight_lt_of_cursor_eq rfl
  split at h
  · exact weight_emitKeyword_hold hm h
  · cases h

theorem weight_inQualifiedKeyword {r s : Reader} {c : Char} (hm : r.mode ≠ .normal)
    (h : (r.inQualifiedKeyword c).reader? = some s) : s.weight < r.weight + 3 := by
  unfold inQualifiedKeyword at h
  split at h
  · cases h
    exact weight_lt_of_cursor_eq rfl
  split at h
  · exact weight_emitKeyword_hold hm h
  · cases h

theorem weight_step {r s : Reader} {c : Char} (h : (r.step c).reader? = some s) :
    s.weight < r.weight + 3 := by
  unfold step at h
  split at h
  · exact weight_inNormal h
  · exact weight_inCharacter h
  · exact weight_inString h
  · exact weight_inComment h
  · next hm => exact weight_inKeyword (by simp [hm]) h
  · next hm => exact weight_inQualifiedKeyword (by simp [hm]) h
  · next hm => exact weight_inNumber (.inl (by simp [hm])) h
  · cases h
  · next hm => exact weight_inRadixNumber (by simp [hm]) h

theorem weight_of_take? {r : Reader} {s : Cursor} {c : Char} (h : r.cursor.take? = some (c, s)) :
    { r with cursor := s }.weight + 3 = r.weight := by
  have := Cursor.remaining_of_take? h
  simp only [weight]
  omega

theorem weight_cleared_lt {r : Reader} (h : r.mode ≠ .normal ∨ r.token ≠ []) :
    r.cleared.weight < r.weight := by
  rw [weight_cleared]
  unfold weight
  rcases h with h | h <;> simp only [if_neg h] <;> omega

theorem weight_flush {r s : Reader} {f : Form} (h : r.flush = .form f s) : s.weight < r.weight := by
  have emitted {g : Form} (he : r.cleared.emit g = .form f s)
      (hr : r.mode ≠ .normal ∨ r.token ≠ []) : s.weight < r.weight := by
    rw [reader_of_emit_eq_form he]
    exact weight_cleared_lt hr
  unfold flush at h
  split at h
  case h_1 | h_2 =>
    split at h
    · cases h
    · next ht => exact emitted h (.inr ht)
  case h_5 | h_6 =>
    next hm =>
    split at h
    · exact emitted h (.inl (by rw [hm]; exact Mode.noConfusion))
    · cases h
  case h_7 | h_8 =>
    next hm =>
    unfold emitNumber at h
    split at h
    · cases h
    · exact emitted h (.inl (by rw [hm]; exact Mode.noConfusion))
  all_goals cases h

end Reader

end LazyLisp.Source
