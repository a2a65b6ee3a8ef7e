import LazyLisp.Proofs.Source.Lines
import LazyLisp.Proofs.Source.RoundTrip

namespace LazyLisp.Source

namespace Cursor

variable {s t u : Cursor} {c d : Char}

inductive Reaches : Cursor → Cursor → Prop
  | here (s : Cursor) : Reaches s s
  | take {s t u : Cursor} {c : Char} : s.take? = some (c, t) → Reaches t u → Reaches s u

def lastLine (s : Cursor) : Nat := lineAfter s.line s.rest

theorem lastLine_of_take? (h : s.take? = some (c, t)) : t.lastLine = s.lastLine := by
  obtain ⟨rest, held, line⟩ := s
  cases held with
  | some d =>
    cases h
    rfl
  | none =>
    cases rest with
    | nil => cases h
    | cons d rest =>
      cases h
      rfl

theorem Reaches.lastLine_eq (h : Reaches s t) : t.lastLine = s.lastLine := by
  induction h with
  | here s => rfl
  | take ht _ ih => exact ih.trans (lastLine_of_take? ht)

def place {α : Type} : Scan α → Cursor
  | .ok (_, t) => t
  | .error (_, t) => t

theorem reaches_takeCode (radix : Nat) (invalid : Reason) (count code : Nat) (s : Cursor) :
    Reaches s (place (takeCode radix invalid count code s)) := by
  induction count generalizing code s with
  | zero => exact .here s
  | succ count ih =>
    simp only [takeCode]
    split
    · exact .here s
    · next c u hu =>
      split
      · exact .take hu (ih _ u)
      · exact .take hu (.here u)

theorem reaches_takeSpelling (spelling : List Char) (s : Cursor) :
    Reaches s (place (takeSpelling spelling s)) := by
  induction spelling generalizing s with
  | nil => exact .here s
  | cons d spelling ih =>
    simp only [takeSpelling]
    split
    · exact .here s
    · next c u hu =>
      split
      · exact .take hu (ih u)
      · exact .take hu (.here u)

theorem reaches_takeCoded (radix count : Nat) (invalid : Reason) (s : Cursor) :
    Reaches s (place (takeCoded radix count invalid s)) := by
  have hcode := reaches_takeCode radix invalid count 0 s
  unfold takeCoded
  split
  · next he => rwa [he] at hcode
  · next he =>
    rw [he] at hcode
    split <;> exact hcode

theorem reaches_takeNamed (c : Char) (s : Cursor) : Reaches s (place (takeNamed c s)) := by
  unfold takeNamed
  split
  · exact .here s
  · next name _ =>
    have hspell := reaches_takeSpelling name.spelling.tail s
    split
    · next he => rwa [he] at hspell
    · next he => rwa [he] at hspell

theorem reaches_takeLong (c : Char) (s : Cursor) : Reaches s (place (takeLong c s)) := by
  unfold takeLong
  split
  · exact reaches_takeCoded 16 4 _ s
  split
  · exact reaches_takeCoded 8 3 _ s
  · exact reaches_takeNamed c s

theorem reaches_takeCharLiteral (c : Char) (s : Cursor) : Reaches s (place (takeCharLiteral c s)) := by
  rw [takeCharLiteral_eq]
  split
  · exact .here s
  · have hlong := reaches_takeLong c s
    split
    · next he => rwa [he] at hlong
    · next he =>
      rw [he] at hlong
      split <;> exact hlong

end Cursor

structure Reader.Keeps (r t : Reader) : Prop where
  name : t.name = r.name
  failed : t.failed = r.failed
  lastLine : t.cursor.lastLine = r.cursor.lastLine

def Step.Keeps (r : Reader) : Step → Prop
  | .more t => r.Keeps t
  | .form _ t => r.Keeps t
  | .fault _ _ => True

namespace Reader

variable {r t : Reader} {c : Char} {f : Form}

theorem keeps_emit (h : r.Keeps t) (f : Form) : (t.emit f).Keeps r := by
  unfold emit
  split <;> exact ⟨h.name, h.failed, h.lastLine⟩

theorem keeps_closeBracket (r : Reader) (c : Char) : (r.closeBracket c).Keeps r := by
  unfold closeBracket
  split
  · trivial
  split
  · trivial
  split
  · trivial
  split
  · refine keeps_emit ?_ _
    exact ⟨rfl, rfl, rfl⟩
  · trivial

theorem keeps_pushDigit (r : Reader) (n : Numeral) (c : Char) (mode : Numeral → Mode) :
    (r.pushDigit n c mode).Keeps r := by
  unfold pushDigit
  split
  · exact ⟨rfl, rfl, rfl⟩
  · trivial
  · trivial

theorem keeps_emitNumber (r : Reader) (n : Numeral) (c : Char) : ((r.hold c).emitNumber n).Keeps r := by
  unfold emitNumber
  split
  · trivial
  · refine keeps_emit ?_ _
    exact ⟨rfl, rfl, rfl⟩

theorem keeps_emitKeyword (r : Reader) (c : Char) : ((r.hold c).emitKeyword).Keeps r := by
  refine keeps_emit ?_ _
  exact ⟨rfl, rfl, rfl⟩

theorem keeps_inNumber (r : Reader) (n : Numeral) (c : Char) : (r.inNumber n c).Keeps r := by
  unfold inNumber
  split
  · exact keeps_pushDigit r n c _
  split
  · exact ⟨rfl, rfl, rfl⟩
  split
  · split
    · trivial
    · exact ⟨rfl, rfl, rfl⟩
  split
  · exact ⟨rfl, rfl, rfl⟩
  split
  · exact keeps_emitNumber r n c
  · trivial

theorem keeps_inRadixNumber (r : Reader) (n : Numeral) (c : Char) : (r.inRadixNumber n c).Keeps r := by
  unfold inRadixNumber
  split
  · exact keeps_pushDigit r n c _
  split
  · exact keeps_emitNumber r n c
  · trivial

theorem keeps_quoteMark (r : Reader) : r.Keeps r.quoteMark := by
  unfold quoteMark
  split <;> exact ⟨rfl, rfl, rfl⟩

theorem keeps_plain (r : Reader) (c : Char) : (r.plain c).Keeps r := by
  have same : r.Keeps r := ⟨rfl, rfl, rfl⟩
  unfold plain
  split
  · exact same
  split
  case h_4 | h_5 | h_6 => exact keeps_closeBracket r _
  case h_7 => exact keeps_quoteMark r
  case h_8 | h_9 | h_10 | h_11 => exact keeps_emit same _
  case h_12 =>
    split
    · next s hs =>
      refine keeps_emit ?_ _
      exact ⟨rfl, rfl, Cursor.lastLine_of_take? hs⟩
    · exact keeps_emit same _
  case h_16 => split <;> exact ⟨rfl, rfl, rfl⟩
  case h_17 =>
    split
    · exact keeps_inNumber r _ c
    · split <;> exact ⟨rfl, rfl, rfl⟩
  all_goals exact ⟨rfl, rfl, rfl⟩

theorem keeps_inNormal (r : Reader) (c : Char) : (r.inNormal c).Keeps r := by
  unfold inNormal
  split
  · have he : r.emitToken.Keeps r := by
      refine keeps_emit ?_ _
      exact ⟨rfl, rfl, rfl⟩
    split
    · next t ht =>
      rw [ht] at he
      have hp := keeps_plain t c
      cases hs : t.plain c with
      | more u =>
        rw [hs] at hp
        exact ⟨hp.name.trans he.name, hp.failed.trans he.failed, hp.lastLine.trans he.lastLine⟩
      | form g u =>
        rw [hs] at hp
        exact ⟨hp.name.trans he.name, hp.failed.trans he.failed, hp.lastLine.trans he.lastLine⟩
      | fault reason u => trivial
    · next g t ht =>
      rw [ht] at he
      exact ⟨he.name, he.failed, he.lastLine⟩
    · trivial
  · exact keeps_plain r c

theorem keeps_inCharacter (r : Reader) (c : Char) : (r.inCharacter c).Keeps r := by
  have hreach := Cursor.reaches_takeCharLiteral c r.cursor
  unfold inCharacter
  split
  · next hs =>
    rw [hs] at hreach
    refine keeps_emit ?_ _
    exact ⟨rfl, rfl, hreach.lastLine_eq⟩
  · trivial

theorem keeps_inString (r : Reader) (c : Char) : (r.inString c).Keeps r := by
  unfold inString
  split
  · refine keeps_emit ?_ _
    exact ⟨rfl, rfl, rfl⟩
  split
  · split
    · next hs => exact ⟨rfl, rfl, Cursor.lastLine_of_take? hs⟩
    · trivial
  · exact ⟨rfl, rfl, rfl⟩

theorem keeps_inComment (r : Reader) (c : Char) : (r.inComment c).Keeps r := by
  unfold inComment
  split
  · exact ⟨rfl, rfl, rfl⟩
  split
  · split
    · next hs => exact ⟨rfl, rfl, Cursor.lastLine_of_take? hs⟩
    · exact ⟨rfl, rfl, rfl⟩
  · exact ⟨rfl, rfl, rfl⟩

theorem keeps_inKeyword (r : Reader) (c : Char) : (r.inKeyword c).Keeps r := by
  unfold inKeyword
  split
  · exact ⟨rfl, rfl, rfl⟩
  split
  · exact ⟨rfl, rfl, rfl⟩
  split
  · exact keeps_emitKeyword r c
  · trivial

theorem keeps_inQualifiedKeyword (r : Reader) (c : Char) : (r.inQualifiedKeyword c).Keeps r := by
  unfold inQualifiedKeyword
  split
  · exact ⟨rfl, rfl, rfl⟩
  split
  · exact keeps_emitKeyword r c
  · trivial

theorem keeps_step (r : Reader) (c : Char) : (r.step c).Keeps r := by
  unfold step
  split
  · exact keeps_inNormal r c
  · exact keeps_inCharacter r c
  · exact keeps_inString r c
  · exact keeps_inComment r c
  · exact keeps_inKeyword r c
  · exact keeps_inQualifiedKeyword r c
  · exact keeps_inNumber r _ c
  · trivial
  · exact keeps_inRadixNumber r _ c

theorem keeps_of_take? {s : Cursor} (ht : r.cursor.take? = some (c, s))
    (hs : ({ r with cursor := s }.step c).reader? = some t) : r.Keeps t := by
  have hk := keeps_step { r with cursor := s } c
  have hl := Cursor.lastLine_of_take? ht
  cases he : { r with cursor := s }.step c with
  | more u =>
    rw [he] at hk hs
    cases hs
    exact ⟨hk.name, hk.failed, hk.lastLine.trans hl⟩
  | form g u =>
    rw [he] at hk hs
    cases hs
    exact ⟨hk.name, hk.failed, hk.lastLine.trans hl⟩
  | fault reason u =>
    rw [he] at hs
    cases hs

theorem rest_of_take? {s : Cursor} (hf : r.failed = false) (ht : r.cursor.take? = some (c, s)) :
    r.rest = resume ({ r with cursor := s }.step c) := by
  rw [rest_eq_onward hf, advance_of_take? ht, onward_outcome]
  intro t hs
  exact (keeps_of_take? ht hs).failed.trans hf

/-- A reader that has not failed is at the end of its text, or the claim about it follows from the claim
about the reader to go on with. -/
theorem induction_on_text {motive : Reader → Prop}
    (stop : ∀ r, r.failed = false → r.cursor.take? = none → motive r)
    (go : ∀ r c s, r.failed = false → r.cursor.take? = some (c, s) →
      (∀ t, ({ r with cursor := s }.step c).reader? = some t → motive t) → motive r)
    (r : Reader) (hf : r.failed = false) : motive r := by
  induction hn : r.weight using Nat.strongRecOn generalizing r with
  | ind n ih =>
    subst hn
    cases ht : r.cursor.take? with
    | none => exact stop r hf ht
    | some p =>
      obtain ⟨c, s⟩ := p
      refine go r c s hf ht fun t hs => ?_
      have hw := weight_step hs
      rw [weight_of_take? ht] at hw
      exact ih t.weight hw t ((keeps_of_take? ht hs).failed.trans hf) rfl

def Between (r : Reader) : Prop := (r.mode = .normal ∨ r.mode = .comment) ∧ r.token = []

theorem flush_of_between (h : r.Between) : r.flush = .more r.cleared := by
  obtain ⟨hm | hm, ht⟩ := h <;> simp [flush, hm, ht]

theorem flush_cases (hr : r.Sound) :
    (∃ f, r.pending? = some f) ∨ (∃ reason, r.flush = .fault reason r) ∨ r.Between := by
  have ht := hr.token
  unfold pending? flush
  cases hm : r.mode with
  | normal =>
    by_cases hn : r.token = []
    · exact .inr (.inr ⟨.inl hm, hn⟩)
    · exact .inl ⟨_, if_neg hn⟩
  | comment =>
    -- The token before a comment was completed when it began.
    rw [hm] at ht
    exact .inr (.inr ⟨.inr hm, ht⟩)
  | keyword =>
    by_cases hk : r.keywordComplete = true
    · exact .inl ⟨_, if_pos hk⟩
    · exact .inr (.inl ⟨_, if_neg hk⟩)
  | qualifiedKeyword =>
    by_cases hk : r.nameComplete = true
    · exact .inl ⟨_, if_pos hk⟩
    · exact .inr (.inl ⟨_, if_neg hk⟩)
  | number n =>
    by_cases hd : n.digits = 0
    · exact .inr (.inl ⟨_, if_pos hd⟩)
    · exact .inl ⟨_, if_neg hd⟩
  | radixNumber n =>
    by_cases hd : n.digits = 0
    · exact .inr (.inl ⟨_, if_pos hd⟩)
    · exact .inl ⟨_, if_neg hd⟩
  | character => exact .inr (.inl ⟨_, rfl⟩)
  | string => exact .inr (.inl ⟨_, rfl⟩)
  | decimal => exact .inr (.inl ⟨_, rfl⟩)

theorem eq_context_reader (hf : r.failed = false) (ht : r.cursor.take? = none) :
    r = r.context.reader r.mode r.token [] r.line := by
  obtain ⟨name, ⟨rest, held, l⟩, mode, token, stack, quotes, failed⟩ := r
  obtain ⟨rfl, rfl⟩ : rest = [] ∧ held = none := by
    simpa [Cursor.text, and_comm] using Cursor.text_eq_nil_iff.mpr ht
  obtain rfl : failed = false := hf
  rfl

end Reader

namespace Context

variable {x : Context} {mode : Mode} {token cs ds : List Char} {l : Nat} {c : Char} {f : Form}

theorem accept_nil_of_stack_eq_nil (hx : x.stack = []) (f : Form) (l : Nat) :
    x.accept f [] l = ([f.quotedTimes x.quotes], none) := by
  obtain ⟨name, stack, quotes⟩ := x
  obtain rfl : stack = [] := hx
  change (_ :: ((outer name).idle [] l).rest.1, ((outer name).idle [] l).rest.2) = _
  rw [rest_idle_nil]
  rfl

theorem accept_nil_of_stack_eq_cons {o : OpenForm} {stack : List OpenForm} (hx : x.stack = o :: stack)
    (f : Form) (l : Nat) :
    x.accept f [] l = ([], some ⟨l, x.name, .unterminatedCollection o.bracket.closer⟩) := by
  obtain ⟨name, stack', quotes⟩ := x
  obtain rfl : stack' = o :: stack := hx
  exact rest_idle_nil ⟨name, ⟨o.bracket, f.quotedTimes o.quotes :: o.items, 0⟩ :: stack, quotes⟩ l

end Context

namespace Reader

variable {r : Reader}

theorem rest_of_end_pending (hf : r.failed = false) (ht : r.cursor.take? = none) {f : Form}
    (h : r.pending? = some f) : r.rest = r.context.accept f [] r.line := by
  have hrest := Context.rest_pending_nil (x := r.context) (l := r.line) (f := f) h
  rwa [← eq_context_reader hf ht] at hrest

theorem rest_of_end_fault (hf : r.failed = false) (ht : r.cursor.take? = none) {reason : Reason}
    (h : r.flush = .fault reason r) : r.rest = ([], some ⟨r.line, r.name, reason⟩) := by
  rw [rest_of_end hf ht, finish, h]
  rfl

theorem rest_of_end_between (hf : r.failed = false) (ht : r.cursor.take? = none) (h : r.Between) :
    r.rest = ([], r.complaint?.map fun reason => ⟨r.line, r.name, reason⟩) := by
  rw [rest_of_end hf ht, finish, flush_of_between h]
  change onward (r.complaint?.map .error, r.cleared) = _
  cases r.complaint? <;> rfl

end Reader

end LazyLisp.Source
