namespace LazyLisp

inductive Arity where
  | between (least most : Nat)
  | atLeast (least : Nat)
deriving DecidableEq, Repr

namespace Arity

def exactly (n : Nat) : Arity := between n n

def accepts : Arity → Nat → Bool
  | between least most, n => decide (least ≤ n) && decide (n ≤ most)
  | atLeast least, n => decide (least ≤ n)

theorem accepts_exactly (m n : Nat) : (exactly m).accepts n = true ↔ n = m := by
  simp only [exactly, accepts, Bool.and_eq_true, decide_eq_true_eq]
  omega

def text : Arity → String
  | between least most =>
    if least = most then s!"exactly {least}" else s!"from {least} to {most}"
  | atLeast least => s!"at least {least}"

end Arity

end LazyLisp
