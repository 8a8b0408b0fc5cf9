namespace StyleSheet.Json

/-- Numbers of `bits` significant bits, all below two to the power `top`. -/
structure Precision where
  bits : Nat
  top : Nat
  deriving DecidableEq, Repr

namespace Precision

def double : Precision where
  bits := 53
  top := 1024

/-- The nearest natural number to a quotient; a tie goes to the even neighbour. -/
def nearest (n d : Nat) : Nat :=
  if 2 * (n % d) < d ∨ (2 * (n % d) = d ∧ n / d % 2 = 0) then n / d else n / d + 1

/-- The nearest number with few enough significant bits, however large. -/
def round (p : Precision) (n : Nat) : Nat :=
  let unit := Nat.pow 2 (n.log2 + 1 - p.bits)
  nearest n unit * unit

/-- The least number whose nearest one is too large, halfway past the largest. -/
def limit (p : Precision) : Nat :=
  Nat.pow 2 p.top - Nat.pow 2 (p.top - p.bits - 1)

/-- Whether the product of two numbers, each rounded first, is too large. -/
def overflows (p : Precision) (m n : Nat) : Bool :=
  p.limit ≤ p.round m * p.round n

end Precision

end StyleSheet.Json
