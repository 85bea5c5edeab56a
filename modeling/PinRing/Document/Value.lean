import PinRing.Number.Double
import PinRing.Text.Decimal
import PinRing.Text.Quoted

/-! The values that documents hold, and their written form in messages. -/

namespace PinRing

/-- A document value.  The entries of a mapping stand in the order of their keys' first appearance,
and no key appears twice. -/
inductive Value where
  | null
  | bool (b : Bool)
  | int (n : Int)
  | float (x : Float)
  | text (s : String)
  | list (items : List Value)
  | mapping (entries : List (Value × Value))

/-- Numbers in messages: positional from `0.0001` to below `10 ^ 16`, whole numbers with `.0`, and
exponents of at least two digits. -/
def messageNumber : Decimal.Layout :=
  { leastPositional := -4
    greatestPositional := 15
    exponentMark := "e"
    exponentDigits := 2
    wholeTail := ".0"
    infinityText := "inf"
    nanText := "nan" }

namespace Value

mutual

/-- The written form of a value, with texts in quotes. -/
def literal : Value → String
  | null => "None"
  | bool b => if b then "True" else "False"
  | int n => toString n
  | float x => messageNumber.text (.ofFloat x)
  | text s => Text.quoted s
  | list items => "[" ++ ", ".intercalate (literals items) ++ "]"
  | mapping entries => "\x7b" ++ ", ".intercalate (entryLiterals entries) ++ "\x7d"

def literals : List Value → List String
  | [] => []
  | v :: rest => literal v :: literals rest

def entryLiterals : List (Value × Value) → List String
  | [] => []
  | (k, v) :: rest => (literal k ++ ": " ++ literal v) :: entryLiterals rest

end

mutual

/-- Every integer in a value has few enough digits to be written. -/
def writable : Value → Bool
  | int n => Text.isWritable n
  | list items => allWritable items
  | mapping entries => entriesWritable entries
  | _ => true

def allWritable : List Value → Bool
  | [] => true
  | v :: rest => writable v && allWritable rest

/-- The keys and values of some entries can be written. -/
def entriesWritable : List (Value × Value) → Bool
  | [] => true
  | (k, v) :: rest => writable k && writable v && entriesWritable rest

end

/-- The value as a text; a text stands for itself. -/
def asText : Value → String
  | text s => s
  | v => v.literal

/-- The value as a text, if it can be written. -/
def asText? (v : Value) : Option String :=
  if v.writable then some v.asText else none

/-- Whether a value counts as given: all but null, false, zero and the empty ones. -/
def truthy : Value → Bool
  | null => false
  | bool b => b
  | int n => n != 0
  | float x => x != 0
  | text s => !s.isEmpty
  | list items => !items.isEmpty
  | mapping entries => !entries.isEmpty

/-- The value under a key, written exactly so. -/
def lookup (key : String) : List (Value × Value) → Option Value
  | [] => none
  | (text k, v) :: rest => if k = key then some v else lookup key rest
  | _ :: rest => lookup key rest

end Value

end PinRing
