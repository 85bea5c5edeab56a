/-! Integers in decimal.  An integer of more than `maxDigits` digits is neither read nor written. -/

namespace PinRing.Text

/-- The greatest number of digits of an integer in text. -/
def maxDigits : Nat := 4300

/-- An integer that has few enough digits to be written. -/
def isWritable (n : Int) : Bool :=
  (Nat.toDigits 10 n.natAbs).length ≤ maxDigits

/-- The integer in decimal, if it can be written. -/
def decimal? (n : Int) : Option String :=
  if isWritable n then some (toString n) else none

@[simp] theorem isSome_decimal? (n : Int) : (decimal? n).isSome = isWritable n := by
  by_cases h : isWritable n <;> simp [decimal?, h]

/-- The report on a text whose digits are too many to be read. -/
def unreadableReport (digits : Nat) : String :=
  s!"Exceeds the limit ({maxDigits} digits) for integer string conversion: value has {digits} " ++
    "digits; use sys.set_int_max_str_digits() to increase the limit"

/-- The report on an integer whose digits are too many to be written. -/
def unwritableReport : String :=
  s!"Exceeds the limit ({maxDigits} digits) for integer string conversion; " ++
    "use sys.set_int_max_str_digits() to increase the limit"

end PinRing.Text
