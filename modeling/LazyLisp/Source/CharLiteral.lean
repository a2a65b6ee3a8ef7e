import LazyLisp.Source.Cursor
import LazyLisp.Source.Fault
import LazyLisp.Text.CharClass
import LazyLisp.Text.CharName

/-!
Character literals after their backslash: a single character before a separator or the end of the text,
four hexadecimal digits after `u`, three octal digits after `o`, or a name.
-/

namespace LazyLisp.Source

abbrev Scan (α : Type) := Except (Reason × Cursor) (α × Cursor)

namespace Cursor

def atSeparator (s : Cursor) : Bool :=
  match s.peek? with
  | some c => Text.isSeparator c
  | none => true

def takeCode (radix : Nat) (invalid : Reason) : Nat → Nat → Cursor → Scan Nat
  | 0, code, s => .ok (code, s)
  | count + 1, code, s =>
    match s.take? with
    | none => .error (.unterminatedChar, s)
    | some (c, s) =>
      match Text.digitIn? radix c with
      | some d => takeCode radix invalid count (code * radix + d) s
      | none => .error (invalid, s)

def takeSpelling : List Char → Cursor → Scan Unit
  | [], s => .ok ((), s)
  | expected :: spelling, s =>
    match s.take? with
    | none => .error (.unsupportedCharacter, s)
    | some (c, s) =>
      if c = expected then takeSpelling spelling s else .error (.unsupportedCharacter, s)

def charOfCode? (code : Nat) : Option Char :=
  if code.isValidChar then some (Char.ofNat code) else none

def takeCoded (radix count : Nat) (invalid : Reason) (s : Cursor) : Scan Char :=
  match takeCode radix invalid count 0 s with
  | .error e => .error e
  | .ok (code, s) =>
    match charOfCode? code with
    | some c => .ok (c, s)
    | none => .error (invalid, s)

def takeNamed (initial : Char) (s : Cursor) : Scan Char :=
  match Text.CharName.ofInitial? initial with
  | none => .error (.unsupportedCharacter, s)
  | some name =>
    match takeSpelling name.spelling.tail s with
    | .error e => .error e
    | .ok (_, s) => .ok (name.char, s)

def takeCharLiteral (c : Char) (s : Cursor) : Scan Char :=
  if s.atSeparator then .ok (c, s)
  else
    let scan :=
      if c = 'u' then takeCoded 16 4 .invalidUnicode s
      else if c = 'o' then takeCoded 8 3 .invalidOctal s
      else takeNamed c s
    match scan with
    | .error e => .error e
    | .ok (value, s) => if s.atSeparator then .ok (value, s) else .error (.unsupportedCharacter, s)

theorem remaining_takeCode {radix : Nat} {invalid : Reason} {count code value : Nat} {s t : Cursor}
    (h : takeCode radix invalid count code s = .ok (value, t)) : t.remaining ≤ s.remaining := by
  induction count generalizing code s with
  | zero =>
    simp only [takeCode, Except.ok.injEq, Prod.mk.injEq] at h
    exact Nat.le_of_eq (by rw [h.2])
  | succ count ih =>
    simp only [takeCode] at h
    split at h
    · cases h
    · next c s' ht =>
      have hs := remaining_of_take? ht
      split at h
      · have := ih h
        omega
      · cases h

theorem remaining_takeSpelling {spelling : List Char} {s t : Cursor} {u : Unit}
    (h : takeSpelling spelling s = .ok (u, t)) : t.remaining ≤ s.remaining := by
  induction spelling generalizing s with
  | nil =>
    simp only [takeSpelling, Except.ok.injEq, Prod.mk.injEq] at h
    exact Nat.le_of_eq (by rw [h.2])
  | cons c spelling ih =>
    simp only [takeSpelling] at h
    split at h
    · cases h
    · next d s' ht =>
      have hs := remaining_of_take? ht
      split at h
      · have := ih h
        omega
      · cases h

theorem remaining_takeCoded {radix count : Nat} {invalid : Reason} {s t : Cursor} {c : Char}
    (h : takeCoded radix count invalid s = .ok (c, t)) : t.remaining ≤ s.remaining := by
  simp only [takeCoded] at h
  split at h
  · cases h
  · next code s' hs =>
    split at h
    · cases h
      exact remaining_takeCode hs
    · cases h

theorem remaining_takeNamed {initial c : Char} {s t : Cursor}
    (h : takeNamed initial s = .ok (c, t)) : t.remaining ≤ s.remaining := by
  simp only [takeNamed] at h
  split at h
  · cases h
  · split at h
    · cases h
    · next hs =>
      cases h
      exact remaining_takeSpelling hs

theorem remaining_takeCharLiteral {c d : Char} {s t : Cursor}
    (h : takeCharLiteral c s = .ok (d, t)) : t.remaining ≤ s.remaining := by
  simp only [takeCharLiteral] at h
  split at h
  · cases h
    exact Nat.le_refl _
  · split at h
    · cases h
    · next value s' hs =>
      split at h
      · cases h
        split at hs
        · exact remaining_takeCoded hs
        · split at hs
          · exact remaining_takeCoded hs
          · exact remaining_takeNamed hs
      · cases h

end Cursor

end LazyLisp.Source
