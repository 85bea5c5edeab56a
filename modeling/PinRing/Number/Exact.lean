import PinRing.Number.Double

/-! The numbers that integers and doubles stand for, without rounding, and their order. -/

namespace PinRing

/-- A number as it compares with others. -/
inductive Number where
  | nan
  | infinite (negative : Bool)
  | finite (r : Rat)
deriving DecidableEq

/-- What a double stands for. -/
def Double.number : Double → Number
  | .nan => .nan
  | .infinite negative => .infinite negative
  | .finite negative mantissa exponent =>
    let n : Int := (mantissa <<< exponent.toNat : Nat)
    .finite (mkRat (if negative then -n else n) (1 <<< (-exponent).toNat))

namespace Number

/-- Whether a number is at most another.  No number is in order with what is none. -/
def atMost : Number → Number → Bool
  | nan, _ => false
  | _, nan => false
  | finite r, finite s => r ≤ s
  | infinite negative, infinite negative' => negative || !negative'
  | infinite negative, finite _ => negative
  | finite _, infinite negative => !negative

/-- The integer that a number is. -/
def whole? : Number → Option Int
  | finite r => if r.den = 1 then some r.num else none
  | _ => none

end Number

end PinRing
