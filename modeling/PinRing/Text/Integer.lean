import PinRing.Text.Blank
import PinRing.Text.Decimal
import PinRing.Text.Digit

/-! Integers in text: blanks, a sign, and decimal digits of any script, in which single underscores
may stand between digits. -/

namespace PinRing.Text

/-- Why a text could not be read as an integer. -/
inductive IntegerFault where
  | malformed
  /-- More digits than can be read, whatever follows them. -/
  | tooManyDigits (digits : Nat)
deriving DecidableEq

/-- The values of digits between which single underscores may stand. -/
def digitRun? : List Char → Option (List Nat)
  | [] => none
  | [c] => (digitValue? c).map ([·])
  | c :: '_' :: rest => do
    let d ← digitValue? c
    let ds ← digitRun? rest
    return d :: ds
  | c :: rest => do
    let d ← digitValue? c
    let ds ← digitRun? rest
    return d :: ds

def numberOf (digits : List Nat) : Nat :=
  digits.foldl (fun n d => n * 10 + d) 0

/-- A digit or an underscore. -/
def isNumeric (c : Char) : Bool :=
  c = '_' || (digitValue? c).isSome

/-- A number without a sign.  The digits are counted before anything after them is looked at. -/
def natural (cs : List Char) : Except IntegerFault Nat :=
  let run := cs.takeWhile isNumeric
  match digitRun? run with
  | none => .error .malformed
  | some digits =>
    if maxDigits < digits.length then .error (.tooManyDigits digits.length)
    else if run.length < cs.length then .error .malformed
    else .ok (numberOf digits)

/-- The integer that a text stands for. -/
def integer (s : String) : Except IntegerFault Int :=
  match stripBy isNumberBlank s.toList with
  | '-' :: rest => (natural rest).map fun n => -(n : Int)
  | '+' :: rest => (natural rest).map Int.ofNat
  | cs => (natural cs).map Int.ofNat

end PinRing.Text
