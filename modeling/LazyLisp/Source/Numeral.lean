import LazyLisp.Text.CharClass

/-!
Integer literals, built up digit by digit. Negative literals count downwards, so that every 64-bit
integer can be written; a literal outside that range is refused at the first digit that leaves it.
-/

namespace LazyLisp.Source

structure Numeral where
  negative : Bool
  value : Int64
  base : Nat
  digits : Nat
deriving DecidableEq, Repr

namespace Numeral

def start (negative : Bool) : Numeral := ⟨negative, 0, 10, 0⟩

def inBase (n : Numeral) (base : Nat) : Numeral := { n with value := 0, base := base, digits := 0 }

inductive DigitFault where
  | invalid | overflow
deriving DecidableEq, Repr

def extended (n : Numeral) (digit : Nat) : Int :=
  if n.negative then n.value.toInt * n.base - digit else n.value.toInt * n.base + digit

def fits (i : Int) : Bool := decide (Int64.minValue.toInt ≤ i) && decide (i ≤ Int64.maxValue.toInt)

def push (n : Numeral) (c : Char) : Except DigitFault Numeral :=
  match Text.digitIn? n.base c with
  | none => .error .invalid
  | some d =>
    if fits (n.extended d) then
      .ok { n with value := Int64.ofInt (n.extended d), digits := n.digits + 1 }
    else .error .overflow

/-- The number read so far without its sign, as a base for the digits that follow. The least integer
has no counterpart and stays as it is. -/
def magnitude (n : Numeral) : Int64 := n.value.abs

end Numeral

end LazyLisp.Source
