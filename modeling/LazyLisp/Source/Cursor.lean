/-!
A place in a text, with room for one character that was taken and handed back. Lines are counted when a
line end is taken from the text, so a line end that was handed back is not counted again.
-/

namespace LazyLisp.Source

structure Cursor where
  rest : List Char
  held : Option Char
  line : Nat
deriving DecidableEq, Repr

namespace Cursor

def start (text : List Char) : Cursor := ⟨text, none, 1⟩

def peek? (s : Cursor) : Option Char :=
  match s.held with
  | some c => some c
  | none => s.rest.head?

def take? (s : Cursor) : Option (Char × Cursor) :=
  match s.held with
  | some c => some (c, { s with held := none })
  | none =>
    match s.rest with
    | [] => none
    | c :: rest => some (c, ⟨rest, none, if c = '\n' then s.line + 1 else s.line⟩)

def hold (s : Cursor) (c : Char) : Cursor := { s with held := some c }

def remaining (s : Cursor) : Nat := s.rest.length + s.held.toList.length

theorem remaining_hold (s : Cursor) (c : Char) : (s.hold c).remaining ≤ s.remaining + 1 := by
  simp only [remaining, hold, Option.toList_some, List.length_singleton]
  omega

theorem remaining_of_take? {s t : Cursor} {c : Char} (h : s.take? = some (c, t)) :
    t.remaining + 1 = s.remaining := by
  obtain ⟨rest, held, line⟩ := s
  cases held with
  | some d => simp_all [take?, remaining]; grind
  | none =>
    cases rest with
    | nil => simp [take?] at h
    | cons d rest => simp_all [take?, remaining]; grind

theorem take?_hold (s : Cursor) (c : Char) (h : s.held = none) :
    (s.hold c).take? = some (c, s) := by
  cases s
  simp_all [take?, hold]

theorem peek?_eq_none_iff (s : Cursor) : s.peek? = none ↔ s.take? = none := by
  obtain ⟨rest, held, line⟩ := s
  cases held <;> cases rest <;> simp [peek?, take?]

end Cursor

end LazyLisp.Source
