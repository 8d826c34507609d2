set_option autoImplicit false

namespace Inquiry.Double

def bound : Nat := Nat.pow 2 1024

/-- The power of two of which every double as large as `n` is a multiple. -/
def unit (n : Nat) : Nat := Nat.pow 2 (n.log2 + 1 - 53)

/-- The double next to `n`, a half to the even neighbour, without regard to the bound. -/
def round (n : Nat) : Nat :=
  let quotient := n / unit n
  let twice := 2 * (n % unit n)
  let up := unit n < twice ∨ (twice = unit n ∧ quotient % 2 = 1)
  (if up then quotient + 1 else quotient) * unit n

end Inquiry.Double
