/-! Binary fractions between zero and one, as they are stored in a double, and their product with a
count. -/

namespace PinRing

/-- The fraction `mantissa / 2 ^ scale`, positive and at most one. -/
structure Fraction where
  mantissa : Nat
  scale : Nat
  mantissa_pos : 0 < mantissa := by decide
  mantissa_le : mantissa ≤ 1 <<< scale := by decide

/-- `n / 2 ^ k` to the nearest integer; a tie goes to the even neighbour. -/
def roundShift (n k : Nat) : Nat :=
  let unit := 1 <<< k
  let q := n >>> k
  let r := 2 * (n % unit)
  if r < unit then q
  else if unit < r then q + 1
  else q + q % 2

/-- `n` to the nearest number of 53 significant bits, the precision of a double; a tie goes to the
even neighbour. -/
def roundToDouble (n : Nat) : Nat :=
  let k := n.log2 + 1 - 53
  roundShift n k <<< k

/-- The whole part of `n` times a fraction, where the count and the product are rounded to doubles
first. -/
def Fraction.floorMul (f : Fraction) (n : Nat) : Nat :=
  roundToDouble (roundToDouble n * f.mantissa) >>> f.scale

end PinRing
