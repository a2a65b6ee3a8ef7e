import Mathlib.Logic.Function.Iterate
import LazyLisp.Proofs.Source.Turns

namespace LazyLisp.Source

namespace Cursor

variable {s t : Cursor} {c : Char} {text : List Char}

/-- Some of the text has been taken. Lines are counted in that, and a character that was handed back is the
last of it. -/
def Placed (text : List Char) (s : Cursor) : Prop :=
  ∃ taken : List Char, taken ++ s.rest = text ∧ s.line = 1 + taken.count '\n' ∧
    ∀ d, s.held = some d → taken.getLast? = some d

theorem placed_start (text : List Char) : (start text).Placed text := ⟨[], rfl, rfl, nofun⟩

theorem Placed.hold_of_take? (h : s.Placed text) (ht : s.take? = some (c, t)) : (t.hold c).Placed text := by
  obtain ⟨rest, held, line⟩ := s
  obtain ⟨taken, htext, hline, hlast⟩ := h
  cases held with
  | some d =>
    cases ht
    exact ⟨taken, htext, hline, hlast⟩
  | none =>
    cases rest with
    | nil => cases ht
    | cons d rest =>
      cases ht
      refine ⟨taken ++ [c], by simpa [hold] using htext, ?_, fun e he => ?_⟩
      · simp only [hold, List.count_append, List.count_singleton] at hline ⊢
        by_cases hc : c = '\n'
        · simp [hc, hline, Nat.add_assoc]
        · simp [hc, hline]
      · cases he
        simp

theorem Placed.take (h : s.Placed text) (ht : s.take? = some (c, t)) : t.Placed text := by
  obtain ⟨taken, htext, hline, -⟩ := h.hold_of_take? ht
  exact ⟨taken, htext, hline, by simp [(text_of_take? ht).2]⟩

theorem Placed.reaches (h : s.Placed text) (hr : s.Reaches t) : t.Placed text := by
  induction hr with
  | here s => exact h
  | take ht _ ih => exact ih (h.take ht)

theorem length_text_of_take? (ht : s.take? = some (c, t)) : t.text.length + 1 = s.text.length := by
  rw [(text_of_take? ht).1, List.length_cons]

theorem Reaches.length_text_le (h : s.Reaches t) : t.text.length ≤ s.text.length := by
  induction h with
  | here s => exact Nat.le_refl _
  | take ht _ ih =>
    have hlen := length_text_of_take? ht
    omega

end Cursor

/-- How a call of the reader stands: under way, finished, or stopped since a character was to be handed
back while another one waited. -/
inductive Call where
  | running (r : Reader)
  | returned (answer : Option (Except Fault Form) × Reader)
  | refused

namespace Reader

def conclude : Option (Except Reason Form) × Reader → Option (Except Fault Form) × Reader
  | (none, r) => (none, r)
  | (some (.ok f), r) => (some (.ok f), r)
  | (some (.error reason), r) => (some (.error ⟨r.line, r.name, reason⟩), { r with failed := true })

def call (r : Reader) : Call := if r.failed then .returned (none, r) else .running r

end Reader

namespace Call

def ofStep : Option Step → Call
  | none => .refused
  | some (.more r) => .running r
  | some (.form f r) => .returned (Reader.conclude (some (.ok f), r))
  | some (.fault reason r) => .returned (Reader.conclude (some (.error reason), r))

def turn : Call → Call
  | .running r =>
    match r.cursor.take? with
    | none => .returned (Reader.conclude r.finish)
    | some (c, s) => ofStep ({ r with cursor := s }.turn c)
  | call => call

def reader? : Call → Option Reader
  | .running r => some r
  | .returned (_, r) => some r
  | .refused => none

end Call

namespace Reader

def after (r : Reader) (k : Nat) : Reader := (fun t => t.next.2)^[k] r

def answer (r : Reader) (k : Nat) : Option (Except Fault Form) := (r.after k).next.1

def during (r : Reader) (k i : Nat) : Call := Call.turn^[i] (r.after k).call

def formsOf (r : Reader) : Nat → List Form
  | 0 => []
  | k + 1 =>
    match r.next with
    | (some (.ok f), t) => f :: t.formsOf k
    | (_, t) => t.formsOf k

variable {r t : Reader} {s : Cursor} {c : Char} {f : Form}

theorem next_eq_conclude (hf : r.failed = false) : r.next = conclude r.advance := by
  rw [next, if_neg (by simp [hf])]
  rcases r.advance with ⟨_ | (reason | f), t⟩ <;> rfl

theorem flush_eq_or (r : Reader) : (∃ f, r.flush = r.cleared.emit f ∧ r.stage = 2) ∨
    r.flush = .more r.cleared ∨ ∃ reason, r.flush = .fault reason r := by
  unfold flush
  cases hm : r.mode with
  | normal =>
    by_cases ht : r.token = []
    · exact .inr (.inl (if_pos ht))
    · exact .inl ⟨_, if_neg ht, by simp only [stage, hm, ht, if_false]⟩
  | comment =>
    by_cases ht : r.token = []
    · exact .inr (.inl (if_pos ht))
    · exact .inl ⟨_, if_neg ht, by simp only [stage, hm]⟩
  | character | string | decimal => exact .inr (.inr ⟨_, rfl⟩)
  | keyword =>
    by_cases hk : r.keywordComplete = true
    · exact .inl ⟨_, if_pos hk, by simp only [stage, hm]⟩
    · exact .inr (.inr ⟨_, if_neg hk⟩)
  | qualifiedKeyword =>
    by_cases hk : r.nameComplete = true
    · exact .inl ⟨_, if_pos hk, by simp only [stage, hm]⟩
    · exact .inr (.inr ⟨_, if_neg hk⟩)
  | number n | radixNumber n =>
    by_cases hn : n.digits = 0
    · exact .inr (.inr ⟨_, if_pos hn⟩)
    · exact .inl ⟨_, if_neg hn, by simp only [stage, hm, hn, if_false]⟩

theorem finish_cases (r : Reader) :
    (∃ f, r.finish = (some (.ok f), { r.cleared with quotes := 0 }) ∧ r.stage = 2) ∨
      (∃ reason t, r.finish = (some (.error reason), t) ∧ t.cursor = r.cursor) ∨
      r.finish = (none, r.cleared) ∧ r.stack = [] ∧ r.quotes = 0 := by
  obtain ⟨name, cursor, mode, token, stack, quotes, failed⟩ := r
  unfold finish
  rcases flush_eq_or ⟨name, cursor, mode, token, stack, quotes, failed⟩ with ⟨f, hf, hs⟩ | hf | ⟨reason, hf⟩
  · rw [hf]
    cases stack with
    | nil => exact .inl ⟨_, rfl, hs⟩
    | cons o stack => exact .inr (.inl ⟨_, _, rfl, rfl⟩)
  · rw [hf]
    cases stack with
    | nil =>
      cases quotes with
      | zero => exact .inr (.inr ⟨rfl, rfl, rfl⟩)
      | succ quotes => exact .inr (.inl ⟨_, _, rfl, rfl⟩)
    | cons o stack => exact .inr (.inl ⟨_, _, rfl, rfl⟩)
  · rw [hf]
    exact .inr (.inl ⟨_, _, rfl, rfl⟩)

end Reader

namespace Call

variable {r t : Reader} {s : Cursor} {c : Char} {call : Call} {text : List Char}

theorem turn_of_end (ht : r.cursor.take? = none) : (running r).turn = .returned (Reader.conclude r.finish) := by
  simp only [turn, ht]

theorem exists_turn (h : r.Tidy) (ht : r.cursor.take? = some (c, s)) :
    ∃ st, (running r).turn = ofStep (some st) ∧ st.Turned { r with cursor := s } c ∧
      Reader.outcome st = r.advance := by
  obtain ⟨st, hst, hturned, ho⟩ := Reader.exists_turn (r := { r with cursor := s }) (Cursor.text_of_take? ht).2 h c
  refine ⟨st, ?_, hturned, ho.trans (Reader.advance_of_take? ht).symm⟩
  simp only [turn, ht, hst]

theorem moved_of_turn (h : r.Tidy) (ht : r.cursor.take? = some (c, s))
    (hu : (running r).turn.reader? = some t) : s.Reaches t.cursor ∨ t.cursor = s.hold c := by
  obtain ⟨st, hst, hturned, -⟩ := exists_turn h ht
  rw [hst] at hu
  cases st with
  | more u =>
    cases hu
    exact hturned.proceeds.imp_right And.left
  | form f u =>
    cases hu
    exact hturned.1.imp_right And.left
  | fault reason u =>
    cases hu
    exact hturned

theorem placed_of_turn (h : r.Tidy) (hp : r.cursor.Placed text) (hu : (running r).turn.reader? = some t) :
    t.cursor.Placed text := by
  cases ht : r.cursor.take? with
  | none =>
    rw [turn_of_end ht] at hu
    rcases r.finish_cases with ⟨f, hf, -⟩ | ⟨reason, u, hf, hc⟩ | ⟨hf, -⟩
    · rw [hf] at hu
      cases hu
      exact hp
    · rw [hf] at hu
      cases hu
      change u.cursor.Placed text
      rwa [hc]
    · rw [hf] at hu
      cases hu
      exact hp
  | some p =>
    rcases moved_of_turn h ht hu with hm | hm
    · exact (hp.take ht).reaches hm
    · rw [hm]
      exact hp.hold_of_take? ht

theorem token_of_turn (h : r.Tidy) (hu : (running r).turn = .running t)
    (hm : t.mode = .string ∨ t.mode = .comment ∨ t.mode = .character) (hne : t.mode ≠ r.mode) : t.token = [] := by
  cases ht : r.cursor.take? with
  | none =>
    rw [turn_of_end ht] at hu
    cases hu
  | some p =>
    obtain ⟨st, hst, hturned, -⟩ := exists_turn h ht
    rw [hst] at hu
    cases st with
    | more u =>
      cases hu
      rcases hm with hm | hm | hm
      · exact (hturned.opens hm).resolve_left fun hr => hne (hm.trans hr.symm)
      · exact hturned.tidy (.inr hm)
      · exact hturned.tidy (.inl hm)
    | form f u => cases hu
    | fault reason u => cases hu

def Tidy : Call → Prop
  | .running r => r.Tidy
  | .returned (answer, r) =>
    r.mode = .normal ∧ r.token = [] ∨ r.failed = true ∧ ∀ f, answer ≠ some (.ok f)
  | .refused => False

theorem tidy_turn (h : call.Tidy) : call.turn.Tidy := by
  cases call with
  | returned p => exact h
  | refused => exact h
  | running r =>
    cases ht : r.cursor.take? with
    | none =>
      rw [turn_of_end ht]
      rcases r.finish_cases with ⟨f, hf, -⟩ | ⟨reason, t, hf, -⟩ | ⟨hf, -⟩
      · rw [hf]
        exact .inl ⟨rfl, rfl⟩
      · rw [hf]
        exact .inr ⟨rfl, nofun⟩
      · rw [hf]
        exact .inl ⟨rfl, rfl⟩
    | some p =>
      obtain ⟨st, hst, hturned, -⟩ := exists_turn h ht
      rw [hst]
      cases st with
      | more t => exact hturned.tidy
      | form f t => exact .inl hturned.2
      | fault reason t => exact .inr ⟨rfl, nofun⟩

structure Sound (text : List Char) (call : Call) : Prop where
  tidy : call.Tidy
  placed : ∀ r, call.reader? = some r → r.cursor.Placed text

theorem sound_turn (h : call.Sound text) : call.turn.Sound text := by
  refine ⟨tidy_turn h.tidy, ?_⟩
  cases call with
  | returned p => exact h.placed
  | refused => exact h.placed
  | running r => exact fun t => placed_of_turn h.tidy (h.placed r rfl)

theorem sound_iterate (h : call.Sound text) (i : Nat) : (turn^[i] call).Sound text := by
  induction i with
  | zero => exact h
  | succ i ih =>
    rw [Function.iterate_succ_apply']
    exact sound_turn ih

end Call

namespace Reader

variable {r t : Reader} {s : Cursor} {c : Char} {f : Form} {text : List Char}

theorem length_text_of_proceeds (ht : r.cursor.take? = some (c, s)) (h : { r with cursor := s }.Proceeds c t) :
    t.cursor.text.length < r.cursor.text.length ∨
      t.cursor.text.length = r.cursor.text.length ∧ t.stage < r.stage := by
  rw [← Cursor.length_text_of_take? ht]
  rcases h with h | ⟨h, hlt⟩
  · exact .inl (Nat.lt_succ_of_le h.length_text_le)
  · refine .inr ⟨?_, hlt⟩
    rw [h, Cursor.text_hold (Cursor.text_of_take? ht).2, List.length_cons]

def turnsLeft (r : Reader) : Nat := 3 * r.cursor.text.length + r.stage

theorem turnsLeft_lt (ht : r.cursor.take? = some (c, s)) (h : { r with cursor := s }.Proceeds c t) :
    t.turnsLeft < r.turnsLeft := by
  have hlen := length_text_of_proceeds ht h
  have hstage := t.stage_le
  unfold turnsLeft
  omega

theorem call_returns (h : r.Tidy) :
    ∃ i ≤ r.turnsLeft + 1, Call.turn^[i] (.running r) = .returned (conclude r.advance) := by
  induction hn : r.turnsLeft using Nat.strongRecOn generalizing r with
  | ind n ih =>
    subst hn
    cases ht : r.cursor.take? with
    | none =>
      refine ⟨1, Nat.le_add_left _ _, ?_⟩
      rw [advance_of_end ht]
      exact Call.turn_of_end ht
    | some p =>
      obtain ⟨st, hst, hturned, ho⟩ := Call.exists_turn h ht
      cases st with
      | more t =>
        -- The turns left have become fewer, and what is read from here on is what is read from `r` on.
        have hlt := turnsLeft_lt ht hturned.proceeds
        obtain ⟨i, hi, hreturn⟩ := ih t.turnsLeft hlt hturned.tidy rfl
        refine ⟨i + 1, by omega, ?_⟩
        rw [Function.iterate_succ_apply, hst, ← ho]
        exact hreturn
      | form f t => exact ⟨1, Nat.le_add_left _ _, ho ▸ hst⟩
      | fault reason t => exact ⟨1, Nat.le_add_left _ _, ho ▸ hst⟩

def formsLeft (r : Reader) : Nat := r.cursor.text.length + r.stage / 2

theorem formsLeft_le (ht : r.cursor.take? = some (c, s)) (h : { r with cursor := s }.Proceeds c t) :
    t.formsLeft ≤ r.formsLeft := by
  have hlen := length_text_of_proceeds ht h
  have hstage := t.stage_le
  unfold formsLeft
  omega

theorem formsLeft_lt (ht : r.cursor.take? = some (c, s)) (h : { r with cursor := s }.Proceeds c t)
    (hm : t.mode = .normal) (htk : t.token = []) : t.formsLeft < r.formsLeft := by
  have hlen := length_text_of_proceeds ht h
  have hstage := stage_of_idle hm htk
  unfold formsLeft
  omega

theorem formsLeft_advance (h : r.Tidy) (ha : r.advance = (some (.ok f), t)) :
    t.formsLeft < r.formsLeft ∧ t.mode = .normal := by
  fun_induction advance r with
  | case1 r ht =>
    rcases r.finish_cases with ⟨g, hf, hs⟩ | ⟨reason, u, hf, -⟩ | ⟨hf, -⟩
    · rw [hf] at ha
      cases ha
      have hstage : { r.cleared with quotes := 0 }.stage = 1 := stage_of_idle rfl rfl
      refine ⟨?_, rfl⟩
      rw [formsLeft, formsLeft, hstage, hs]
      exact Nat.lt_succ_self _
    · rw [hf] at ha
      cases ha
    · rw [hf] at ha
      cases ha
  | case2 r c s ht u hu ih =>
    have hturned := turned_step (r := { r with cursor := s }) h c
    rw [hu] at hturned
    have hle := formsLeft_le ht hturned.proceeds
    obtain ⟨hlt, hm⟩ := ih hturned.tidy ha
    exact ⟨Nat.lt_of_lt_of_le hlt hle, hm⟩
  | case3 r c s ht g u hu =>
    cases ha
    have hturned := turned_step (r := { r with cursor := s }) h c
    rw [hu] at hturned
    exact ⟨formsLeft_lt ht hturned.1 hturned.2.1 hturned.2.2, hturned.2.1⟩
  | case4 r c s ht reason u hu => cases ha

structure Spent (r : Reader) : Prop where
  ended : r.cursor.take? = none
  mode : r.mode = .normal
  token : r.token = []
  stack : r.stack = []
  quotes : r.quotes = 0

theorem spent_of_advance (ha : r.advance = (none, t)) : t.Spent := by
  fun_induction advance r with
  | case1 r ht =>
    rcases r.finish_cases with ⟨g, hf, -⟩ | ⟨reason, u, hf, -⟩ | ⟨hf, hstack, hquotes⟩
    · rw [hf] at ha
      cases ha
    · rw [hf] at ha
      cases ha
    · rw [hf] at ha
      cases ha
      exact ⟨ht, rfl, rfl, hstack, hquotes⟩
  | case2 r c s ht u hu ih => exact ih ha
  | case3 r c s ht g u hu => cases ha
  | case4 r c s ht reason u hu => cases ha

theorem next_of_spent (h : r.Spent) : r.next = (none, r) := by
  obtain ⟨name, cursor, mode, token, stack, quotes, failed⟩ := r
  obtain ⟨ht, hm, htk, hstack, hquotes⟩ := h
  obtain rfl : mode = .normal := hm
  obtain rfl : token = [] := htk
  obtain rfl : stack = [] := hstack
  obtain rfl : quotes = 0 := hquotes
  cases failed with
  | true => rfl
  | false =>
    rw [next_eq_conclude rfl, advance_of_end ht]
    rfl

theorem next_of_next_ne_form (h : ∀ f, r.next.1 ≠ some (.ok f)) : r.next.2.next = (none, r.next.2) := by
  cases hf : r.failed with
  | true =>
    have hn : r.next = (none, r) := if_pos hf
    rw [hn, hn]
  | false =>
    rw [next_eq_conclude hf] at h ⊢
    rcases ha : r.advance with ⟨_ | (reason | f), t⟩
    · exact next_of_spent (spent_of_advance ha)
    · rfl
    · rw [ha] at h
      exact absurd rfl (h f)

theorem after_succ (r : Reader) (k : Nat) : r.after (k + 1) = r.next.2.after k := rfl

theorem after_succ' (r : Reader) (k : Nat) : r.after (k + 1) = (r.after k).next.2 :=
  Function.iterate_succ_apply' _ k r

theorem after_of_next (h : r.next = (none, r)) (k : Nat) : r.after k = r := by
  induction k with
  | zero => rfl
  | succ k ih => rw [after_succ, h, ih]

theorem answer_of_next (h : r.next = (none, r)) (k : Nat) : r.answer k = none := by
  rw [answer, after_of_next h, h]

theorem formsOf_of_next (h : r.next = (none, r)) (k : Nat) : r.formsOf k = [] := by
  induction k with
  | zero => rfl
  | succ k ih =>
    rw [formsOf, h]
    exact ih

theorem advance_of_next (h : r.next = (some (.ok f), t)) : r.advance = (some (.ok f), t) := by
  cases hf : r.failed with
  | true => simp [next, hf] at h
  | false =>
    rw [next_eq_conclude hf] at h
    rcases ha : r.advance with ⟨_ | (reason | g), u⟩ <;> rw [ha] at h <;> cases h
    rfl

theorem length_formsOf_le (h : r.Tidy) (k : Nat) : (r.formsOf k).length ≤ r.formsLeft := by
  induction k generalizing r with
  | zero => exact Nat.zero_le _
  | succ k ih =>
    rw [formsOf]
    split
    · next f t hn =>
      obtain ⟨hlt, hm⟩ := formsLeft_advance h (advance_of_next hn)
      exact Nat.lt_of_le_of_lt (ih (tidy_of_normal hm)) hlt
    · next answer t hne hn =>
      have hdone : r.next.2.next = (none, r.next.2) :=
        next_of_next_ne_form fun f hf => hne f (by rw [hn] at hf; exact hf)
      rw [hn] at hdone
      rw [formsOf_of_next hdone]
      exact Nat.zero_le _

theorem sound_call (hp : r.cursor.Placed text) (h : r.failed = true ∨ r.mode = .normal) :
    r.call.Sound text := by
  unfold call
  split
  · next hf => exact ⟨.inr ⟨hf, nofun⟩, fun t ht => by cases ht; exact hp⟩
  · next hf => exact ⟨tidy_of_normal (h.resolve_left hf), fun t ht => by cases ht; exact hp⟩

theorem call_returns_next (h : r.failed = true ∨ r.mode = .normal) :
    ∃ i ≤ r.turnsLeft + 1, Call.turn^[i] r.call = .returned r.next := by
  cases hf : r.failed with
  | true =>
    refine ⟨0, Nat.zero_le _, ?_⟩
    simp [call, next, hf]
  | false =>
    obtain ⟨i, hi, hreturn⟩ := call_returns (tidy_of_normal (h.resolve_left (by simp [hf])))
    refine ⟨i, hi, ?_⟩
    rw [call, if_neg (by simp [hf]), hreturn, next_eq_conclude hf]

theorem ready_next (hp : r.cursor.Placed text) (h : r.failed = true ∨ r.mode = .normal) :
    r.next.2.cursor.Placed text ∧ (r.next.2.failed = true ∨ r.next.2.mode = .normal) := by
  obtain ⟨i, -, hi⟩ := call_returns_next h
  have hs := Call.sound_iterate (sound_call hp h) i
  rw [hi] at hs
  refine ⟨hs.placed _ rfl, ?_⟩
  rcases hs.tidy with h | h
  · exact .inr h.1
  · exact .inl h.1

theorem ready_after (hp : r.cursor.Placed text) (h : r.failed = true ∨ r.mode = .normal) (k : Nat) :
    (r.after k).cursor.Placed text ∧ ((r.after k).failed = true ∨ (r.after k).mode = .normal) := by
  induction k with
  | zero => exact ⟨hp, h⟩
  | succ k ih =>
    rw [after_succ']
    exact ready_next ih.1 ih.2

/-- What holds of all calls of a reader, and of every turn in them. -/
structure WellBehaved (text : List Char) (r : Reader) : Prop where
  returns : ∀ k, ∃ i ≤ 3 * (r.after k).cursor.text.length + 3, r.during k i = .returned (r.after k).next
  /-- A character is handed back only while no other one waits. -/
  accepts : ∀ k i, r.during k i ≠ .refused
  /-- After each turn that takes `c`, the reader has left `c` and perhaps some characters after it, or has
  handed `c` back. -/
  passes : ∀ k i t u c s, r.during k i = .running t → t.cursor.take? = some (c, s) →
    (r.during k (i + 1)).reader? = some u → s.Reaches u.cursor ∨ u.cursor = s.hold c
  placed : ∀ k i t, (r.during k i).reader? = some t → t.cursor.Placed text
  /-- No token is under way where a string, a comment or a character literal begins. -/
  opens : ∀ k i t u, r.during k i = .running t → r.during k (i + 1) = .running u →
    u.mode = .string ∨ u.mode = .comment ∨ u.mode = .character → u.mode ≠ t.mode → u.token = []
  closes : ∀ k i f t, r.during k i = .returned (some (.ok f), t) → t.token = []
  fewer : ∀ k, (r.formsOf k).length ≤ text.length
  silent : ∀ i j, i < j → (∀ f, r.answer i ≠ some (.ok f)) → r.answer j = none

theorem during_succ (r : Reader) (k i : Nat) : r.during k (i + 1) = (r.during k i).turn :=
  Function.iterate_succ_apply' _ i _

theorem wellBehaved_start (text name : String) : (start text name).WellBehaved text.toList := by
  have hready := ready_after (r := start text name) (Cursor.placed_start text.toList) (.inr rfl)
  have hsound (k i : Nat) : ((start text name).during k i).Sound text.toList :=
    Call.sound_iterate (sound_call (hready k).1 (hready k).2) i
  have hturn {k i : Nat} {t : Reader} (hr : (start text name).during k i = .running t) :
      t.Tidy ∧ (start text name).during k (i + 1) = (Call.running t).turn := by
    have htidy := (hsound k i).tidy
    rw [hr] at htidy
    exact ⟨htidy, by rw [during_succ, hr]⟩
  refine ⟨?returns, ?accepts, ?passes, fun k i => (hsound k i).placed, ?opens, ?closes, ?fewer, ?silent⟩
  case returns =>
    intro k
    obtain ⟨i, hi, hreturn⟩ := call_returns_next (hready k).2
    have hstage := ((start text name).after k).stage_le
    unfold turnsLeft at hi
    exact ⟨i, by omega, hreturn⟩
  case accepts =>
    intro k i h
    have htidy := (hsound k i).tidy
    rw [h] at htidy
    exact htidy
  case passes =>
    intro k i t u c s hr ht hu
    obtain ⟨htidy, hnext⟩ := hturn hr
    rw [hnext] at hu
    exact Call.moved_of_turn htidy ht hu
  case opens =>
    intro k i t u hr hu hm hne
    obtain ⟨htidy, hnext⟩ := hturn hr
    rw [hnext] at hu
    exact Call.token_of_turn htidy hu hm hne
  case closes =>
    intro k i f t hr
    have htidy := (hsound k i).tidy
    rw [hr] at htidy
    rcases htidy with ⟨-, ht⟩ | ⟨-, ht⟩
    · exact ht
    · exact absurd rfl (ht f)
  case fewer =>
    intro k
    have hle := length_formsOf_le (r := start text name) (tidy_of_normal rfl) k
    simpa [formsLeft, start, Cursor.start, Cursor.text, stage] using hle
  case silent =>
    intro i j hij h
    have hdone := next_of_next_ne_form h
    rw [← after_succ'] at hdone
    obtain ⟨m, rfl⟩ : ∃ m, j = m + (i + 1) := ⟨j - (i + 1), by omega⟩
    rw [answer, after, Function.iterate_add_apply]
    exact answer_of_next hdone m

-- The digit is handed back in the first turn and the line end in the third, where it has been counted.
example : ((start "7\n" "text").during 0 3).reader?.map (·.cursor) = some ⟨[], some '\n', 2⟩ := rfl

end Reader

end LazyLisp.Source
