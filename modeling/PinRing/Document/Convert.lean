import PinRing.Document.Value
import PinRing.Text.Integer

/-! Reading integers, pairs, items and entries out of document values, with the fault of a value
that does not fit. -/

namespace PinRing

inductive ReadFault where
  /-- A value of a kind that does not fit. -/
  | wrongType
  /-- A value whose entries were asked for has none. -/
  | noEntries
  | missingKey (key : String)
  | notInteger (text : String)
  | tooManyDigits (digits : Nat)
  /-- A value with too many digits to be written. -/
  | unwritable
  /-- A double that is not a number. -/
  | notANumber
  | infinite
  | tooFewItems (found : Nat)
  | tooManyItems
deriving DecidableEq

def ReadFault.message : ReadFault → String
  | wrongType => "<TypeError>"
  | noEntries => "<AttributeError>"
  | missingKey key => Text.quoted key
  | notInteger text =>
    "invalid literal for int() with base 10: " ++ String.ofList ((Text.quoted text).toList.take 200)
  | tooManyDigits digits => Text.unreadableReport digits
  | unwritable => Text.unwritableReport
  | notANumber => "cannot convert float NaN to integer"
  | infinite => "cannot convert float infinity to integer"
  | tooFewItems found => s!"not enough values to unpack (expected 2, got {found})"
  | tooManyItems => "too many values to unpack (expected 2)"

namespace Value

def intOfText (s : String) : Except ReadFault Int :=
  (Text.integer s).mapError fun
    | .malformed => .notInteger s
    | .tooManyDigits digits => .tooManyDigits digits

def intOfFloat (x : Float) : Except ReadFault Int :=
  match Double.ofFloat x with
  | .nan => .error .notANumber
  | .infinite _ => .error .infinite
  | .finite negative mantissa exponent =>
    let n : Int := wholePart mantissa exponent
    .ok (if negative then -n else n)

/-- A value as an integer.  Truth values count as one and zero, and doubles lose their fraction. -/
def toInt : Value → Except ReadFault Int
  | int n => .ok n
  | bool b => .ok (if b then 1 else 0)
  | float x => intOfFloat x
  | text s => intOfText s
  | _ => .error .wrongType

def toText (v : Value) : Except ReadFault String :=
  match v.asText? with
  | some written => .ok written
  | none => .error .unwritable

/-- The items of a list, the characters of a text, or the keys of a mapping. -/
def items : Value → Except ReadFault (List Value)
  | list items => .ok items
  | text s => .ok (s.toList.map fun c => text (String.ofList [c]))
  | mapping entries => .ok (entries.map (·.1))
  | _ => .error .wrongType

def pair (v : Value) : Except ReadFault (Value × Value) := do
  match ← v.items with
  | [a, b] => return (a, b)
  | _ :: _ :: _ :: _ => throw .tooManyItems
  | few => throw (.tooFewItems few.length)

/-- The entries of a mapping. -/
def entries : Value → Except ReadFault (List (Value × Value))
  | mapping entries => .ok entries
  | _ => .error .wrongType

/-- An entry that must be there. -/
def entry (entries : List (Value × Value)) (key : String) : Except ReadFault Value :=
  match lookup key entries with
  | some v => .ok v
  | none => .error (.missingKey key)

end Value

end PinRing
