import LazyLisp.Text.Alphanumeric

namespace LazyLisp.Text

def isBlank (c : Char) : Bool :=
  match c with
  | ' ' | '\n' | '\x0d' | '\t' | '\x0c' | '\x0b' | ',' => true
  | _ => false

def isSeparator (c : Char) : Bool :=
  match c with
  | '(' | ')' | '[' | ']' | '\x7b' | '\x7d' | '\x22' | '\x27' | '\x60' | ';' => true
  | _ => isBlank c

def isKeywordChar (c : Char) : Bool :=
  match c with
  | '_' | '$' | '-' | '?' | '!' | '*' | '+' | '.' | '<' | '>' | '=' => true
  | _ => isAlphanumeric c

def digitWeight? (c : Char) : Option Nat :=
  if c.isDigit then some (c.toNat - '0'.toNat)
  else if c.isLower then some (c.toNat - 'a'.toNat + 10)
  else if c.isUpper then some (c.toNat - 'A'.toNat + 10)
  else none

def digitIn? (base : Nat) (c : Char) : Option Nat :=
  (digitWeight? c).filter fun d => decide (d < base)

theorem digitIn?_lt {base : Nat} {c : Char} {d : Nat} (h : digitIn? base c = some d) : d < base := by
  simp only [digitIn?, Option.filter_eq_some_iff, decide_eq_true_eq] at h
  exact h.2

end LazyLisp.Text
