/-! The numbers that doubles stand for, and their shortest decimal form. -/

namespace PinRing

/-- What a double stands for. -/
inductive Double where
  | nan
  | infinite (negative : Bool)
  /-- `mantissa * 2 ^ exponent`, with its sign. -/
  | finite (negative : Bool) (mantissa : Nat) (exponent : Int)

/-- The parts of the binary format: eleven bits of exponent above 52 bits of mantissa. -/
def Double.ofFloat (x : Float) : Double :=
  let bits := x.toBits.toNat
  let negative := bits >>> 63 == 1
  let exponent : Nat := (bits >>> 52) % 2048
  let fraction := bits % (1 <<< 52)
  if exponent = 2047 then
    if fraction = 0 then .infinite negative else .nan
  else if exponent = 0 then
    .finite negative fraction (-1074)
  else
    .finite negative (1 <<< 52 + fraction) (exponent - 1075)

/-- The whole part of `mantissa * 2 ^ exponent`. -/
def wholePart (mantissa : Nat) (exponent : Int) : Nat :=
  mantissa <<< exponent.toNat >>> (-exponent).toNat

namespace Decimal

def tenTo (n : Nat) : Nat := Nat.pow 10 n

/-- The decimal number `digits * 10 ^ exponent`. -/
structure Scaled where
  digits : Nat
  exponent : Int
deriving DecidableEq

/-- The value `mantissa * 2 ^ exponent` with the bounds of the values that are rounded to it, all in
units of `2 ^ (exponent - 2)`. -/
structure Interval where
  value : Nat
  low : Nat
  high : Nat
  /-- The bounds themselves are rounded to the value. -/
  closed : Bool
  exponent : Int

/-- The interval of a double.  Below a power of two the neighbours lie twice as dense. -/
def Interval.of (mantissa : Nat) (exponent : Int) : Interval :=
  let narrow := mantissa = 1 <<< 52 ∧ exponent ≠ -1074
  { value := 4 * mantissa
    low := 4 * mantissa - if narrow then 1 else 2
    high := 4 * mantissa + 2
    closed := mantissa % 2 = 0
    exponent := exponent - 2 }

/-- `n` units of `2 ^ exponent`, in units common with `10 ^ scale`. -/
def Interval.units (i : Interval) (scale : Int) (n : Nat) : Nat :=
  (n * tenTo (-scale).toNat) <<< i.exponent.toNat

/-- `digits * 10 ^ scale` in the same common units. -/
def Interval.decimalUnits (i : Interval) (scale : Int) (digits : Nat) : Nat :=
  (digits * tenTo scale.toNat) <<< (-i.exponent).toNat

/-- Whether `digits * 10 ^ scale` is rounded to the value. -/
def Interval.holds (i : Interval) (scale : Int) (digits : Nat) : Bool :=
  let d := i.decimalUnits scale digits
  let low := i.units scale i.low
  let high := i.units scale i.high
  if i.closed then low ≤ d && d ≤ high else low < d && d < high

/-- The neighbour of the value on the grid of `10 ^ scale` that is rounded to it; of two the nearer,
of equally near ones the even. -/
def Interval.onGrid (i : Interval) (scale : Int) : Option Nat :=
  let value := i.units scale i.value
  let unit := i.decimalUnits scale 1
  let below := value / unit
  let above := below + 1
  match i.holds scale below && below != 0, i.holds scale above with
  | true, true =>
    let toBelow := value - below * unit
    let toAbove := above * unit - value
    if toBelow < toAbove then some below
    else if toAbove < toBelow then some above
    else some (if below % 2 = 0 then below else above)
  | true, false => some below
  | false, true => some above
  | false, false => none

/-- The first hit on the grids of `10 ^ scale`, `10 ^ (scale - 1)` and so on, at most `grids` of
them. -/
def Interval.firstHit (i : Interval) : (grids : Nat) → (scale : Int) → Scaled
  | 0, scale => ⟨i.value, scale⟩
  | grids + 1, scale =>
    match i.onGrid scale with
    | some digits => ⟨digits, scale⟩
    | none => i.firstHit grids (scale - 1)

/-- The fewest digits that are rounded to a positive double, and of those the nearest to it. -/
def shortest (mantissa : Nat) (exponent : Int) : Scaled :=
  let log := (((mantissa.log2 : Int) + exponent) * 30103).fdiv 100000
  (Interval.of mantissa exponent).firstHit 20 (log + 1)

/-- How decimal numbers are laid out. -/
structure Layout where
  /-- The least exponent of the leading digit that is written without an exponent part. -/
  leastPositional : Int
  /-- The greatest such exponent. -/
  greatestPositional : Int
  /-- What stands before an exponent. -/
  exponentMark : String
  /-- The least number of digits of an exponent. -/
  exponentDigits : Nat
  /-- What follows a whole number. -/
  wholeTail : String
  infinityText : String
  nanText : String

/-- The text padded on the left with zeros to at least `width` characters. -/
def padZeros (width : Nat) (s : String) : String :=
  String.ofList (List.replicate (width - s.length) '0') ++ s

def Layout.exponentText (l : Layout) (e : Int) : String :=
  l.exponentMark ++ (if e < 0 then "-" else "+") ++ padZeros l.exponentDigits (toString e.natAbs)

/-- A positive number without its sign. -/
def Layout.magnitude (l : Layout) (n : Scaled) : String :=
  let ds := toString n.digits
  let lead : Int := n.exponent + ds.length - 1
  if l.leastPositional ≤ lead ∧ lead ≤ l.greatestPositional then
    if 0 ≤ n.exponent then
      ds ++ String.ofList (List.replicate n.exponent.toNat '0') ++ l.wholeTail
    else if 0 ≤ lead then
      let whole := (lead + 1).toNat
      String.ofList (ds.toList.take whole) ++ "." ++ String.ofList (ds.toList.drop whole)
    else
      "0." ++ String.ofList (List.replicate (-lead - 1).toNat '0') ++ ds
  else
    let head := String.ofList (ds.toList.take 1)
    let tail := String.ofList (ds.toList.drop 1)
    (if tail.isEmpty then head else head ++ "." ++ tail) ++ l.exponentText lead

/-- A double in a layout. -/
def Layout.text (l : Layout) : Double → String
  | .nan => l.nanText
  | .infinite negative => (if negative then "-" else "") ++ l.infinityText
  | .finite negative mantissa exponent =>
    (if negative then "-" else "") ++
      if mantissa = 0 then "0" ++ l.wholeTail else l.magnitude (shortest mantissa exponent)

end Decimal

end PinRing
