import PinRing.Document.Fault
import PinRing.Document.Value

/-! Plain scalars: which texts without quotes stand for null, truth values and numbers.  All others
are texts. -/

namespace PinRing.Scalar

def nullWords : List String := ["", "~", "null", "Null", "NULL"]

def trueWords : List String := ["yes", "Yes", "YES", "true", "True", "TRUE", "on", "On", "ON"]

def falseWords : List String := ["no", "No", "NO", "false", "False", "FALSE", "off", "Off", "OFF"]

/-- Splits a sign off; the flag is set for a minus. -/
def splitSign : List Char → Bool × List Char
  | '-' :: rest => (true, rest)
  | '+' :: rest => (false, rest)
  | cs => (false, cs)

def isDigit (c : Char) : Bool := '0' ≤ c && c ≤ '9'

def isBinary (c : Char) : Bool := c = '0' || c = '1'

def isOctal (c : Char) : Bool := '0' ≤ c && c ≤ '7'

def isHex (c : Char) : Bool :=
  isDigit c || ('a' ≤ c && c ≤ 'f') || ('A' ≤ c && c ≤ 'F')

def digitOf (c : Char) : Nat :=
  if isDigit c then c.toNat - '0'.toNat
  else if 'a' ≤ c then c.toNat - 'a'.toNat + 10
  else c.toNat - 'A'.toNat + 10

/-- The number that digits in a base stand for; underscores between them are passed over. -/
def numberIn (base : Nat) (cs : List Char) : Nat :=
  (cs.filter (· != '_')).foldl (fun n c => n * base + digitOf c) 0

/-- At least one character, all of them digits of a class or underscores. -/
def allDigits (p : Char → Bool) (cs : List Char) : Bool :=
  !cs.isEmpty && cs.all fun c => p c || c == '_'

/-- Digits and underscores after a first digit that satisfies `p`. -/
def digitsFrom (p : Char → Bool) : List Char → Bool
  | [] => false
  | c :: rest => p c && rest.all fun c => isDigit c || c == '_'

/-- One part of a number to base sixty: one or two digits, below sixty. -/
def isSixtieth : List Char → Bool
  | [c] => isDigit c
  | [c, d] => '0' ≤ c && c ≤ '5' && isDigit d
  | _ => false

/-- The parts of a text between colons. -/
def splitColons (cs : List Char) : List (List Char) :=
  match cs with
  | [] => [[]]
  | c :: rest =>
    if c = ':' then [] :: splitColons rest
    else
      match splitColons rest with
      | [] => [[c]]
      | part :: parts => (c :: part) :: parts

/-- A written integer: parts to base sixty, each of them digits and underscores to a base. -/
structure Numeral where
  base : Nat := 10
  parts : List (List Char)

namespace Numeral

/-- A single part to a base, of which `p` tells the digits. -/
def whole (base : Nat) (p : Char → Bool) (part : List Char) : Option Numeral :=
  if allDigits p part then some { base, parts := [part] } else none

/-- The digits of a written integer without a sign: binary, octal after a zero, hexadecimal,
decimal, or to base sixty with colons. -/
def ofChars? (cs : List Char) : Option Numeral :=
  match cs with
  | ['0'] => some { parts := [cs] }
  | '0' :: 'b' :: rest => whole 2 isBinary rest
  | '0' :: 'x' :: rest => whole 16 isHex rest
  | '0' :: _ => whole 8 isOctal cs
  | _ =>
    match splitColons cs with
    | head :: rest =>
      if digitsFrom (fun c => '1' ≤ c && c ≤ '9') head && rest.all isSixtieth then
        some { parts := head :: rest }
      else
        none
    | [] => none

/-- The number of one part.  Only the length of a decimal one is limited. -/
def partValue (base : Nat) (part : List Char) : Except DocumentFault Nat :=
  let digits := part.filter (· != '_')
  if base = 10 ∧ Text.maxDigits < digits.length then .error (.tooManyDigits digits.length)
  else if digits.isEmpty then .error (.noDigits base)
  else .ok (numberIn base digits)

def value (n : Numeral) : Except DocumentFault Nat := do
  return (← n.parts.mapM (partValue n.base)).foldl (fun sum part => sum * 60 + part) 0

end Numeral

/-- The integer that a plain scalar stands for, or the fault of one that is written like an
integer. -/
def integer? (cs : List Char) : Option (Except DocumentFault Int) :=
  let (negative, rest) := splitSign cs
  (Numeral.ofChars? rest).map fun numeral =>
    numeral.value.map fun n => if negative then -(n : Int) else n

/-- The exponent part of a number: nothing, or a mark, a sign and digits. -/
def exponent? : List Char → Option Int
  | [] => some 0
  | mark :: sign :: digits =>
    if (mark = 'e' ∨ mark = 'E') ∧ (sign = '+' ∨ sign = '-') ∧
        !digits.isEmpty ∧ digits.all isDigit then
      some (if sign = '-' then -(numberIn 10 digits : Int) else numberIn 10 digits)
    else
      none
  | _ => none

/-- The double nearest to `mantissa * 10 ^ exponent`. -/
def decimal (mantissa : Nat) (exponent : Int) : Float :=
  Float.ofScientific mantissa (exponent < 0) exponent.natAbs

/-- The double for digits on both sides of the point, with an exponent. -/
def pointed (whole fraction : List Char) (exponent : Int) : Float :=
  let fraction := fraction.filter (· != '_')
  decimal (numberIn 10 (whole ++ fraction)) (exponent - fraction.length)

def splitPoint (cs : List Char) : Option (List Char × List Char) :=
  match cs.span (· != '.') with
  | (whole, '.' :: rest) => some (whole, rest)
  | _ => none

/-- The sum of parts to base sixty, of which the last comes first.  The weight of a part, be the
part zero or not, must be within the range of doubles. -/
def sixtiethSum (parts : List Float) : Except DocumentFault Float :=
  parts.zipIdx.foldlM
    (fun sum (part, place) =>
      let weight := Float.ofNat (Nat.pow 60 place)
      if weight.isInf then .error .overflow else .ok (sum + part * weight))
    0.0

/-- A number with a point to base sixty, such as `1:30.5`. -/
def sixtieths? (whole fraction : List Char) : Option (Except DocumentFault Float) :=
  match (splitColons whole).reverse with
  | last :: front =>
    if !front.isEmpty && digitsFrom isDigit (front.getLastD []) &&
        (last :: front.dropLast).all isSixtieth &&
        fraction.all fun c => isDigit c || c == '_' then
      some (sixtiethSum (pointed last fraction 0 ::
        front.map fun part => Float.ofNat (numberIn 10 part)))
    else
      none
  | [] => none

/-- An unsigned number with a point between digits, with or without an exponent. -/
def unsignedFloat? (cs : List Char) : Option (Except DocumentFault Float) :=
  match splitPoint cs with
  | none => none
  | some (whole, rest) =>
    let fraction := rest.takeWhile fun c => isDigit c || c == '_'
    let tail := rest.drop fraction.length
    if digitsFrom isDigit whole then
      (exponent? tail).map fun e => .ok (pointed whole fraction e)
    else if tail.isEmpty then
      sixtieths? whole fraction
    else
      none

/-- A number that begins with a point. -/
def fraction? : List Char → Option Float
  | '.' :: rest =>
    let fraction := rest.takeWhile fun c => isDigit c || c == '_'
    if digitsFrom isDigit fraction then
      (exponent? (rest.drop fraction.length)).map (pointed [] fraction)
    else
      none
  | _ => none

/-- The double that a plain scalar stands for, or the fault of one that is written like a double. -/
def float? (cs : List Char) : Option (Except DocumentFault Float) :=
  let (negative, rest) := splitSign cs
  let signed (x : Float) : Float := if negative then -x else x
  let s := String.ofList rest
  if s == ".inf" || s == ".Inf" || s == ".INF" then
    some (.ok (signed (1.0 / 0.0)))
  else if [".nan", ".NaN", ".NAN"].contains (String.ofList cs) then
    some (.ok (0.0 / 0.0))
  else
    ((fraction? cs).map .ok).or ((unsignedFloat? rest).map fun x => x.map signed)

/-- As many digits as the list has entries, each with the character after it, if any. -/
def isDate (cs : List Char) : Bool :=
  match cs with
  | [a, b, c, d, '-', e, f, '-', g, h] => [a, b, c, d, e, f, g, h].all isDigit
  | _ => false

/-- One or two digits, and what follows them. -/
def oneOrTwoDigits : List Char → Option (List Char)
  | a :: b :: rest =>
    if isDigit a then (if isDigit b then some rest else some (b :: rest)) else none
  | [a] => if isDigit a then some [] else none
  | [] => none

/-- Two digits, and what follows them. -/
def twoDigits : List Char → Option (List Char)
  | a :: b :: rest => if isDigit a && isDigit b then some rest else none
  | _ => none

/-- A given character, and what follows it. -/
def expect (c : Char) : List Char → Option (List Char)
  | d :: rest => if c = d then some rest else none
  | [] => none

/-- The zone of a time: nothing, `Z`, or an offset. -/
def isZone (cs : List Char) : Bool :=
  match cs.dropWhile fun c => c = ' ' || c = '\t' with
  | [] => cs.isEmpty
  | ['Z'] => true
  | sign :: rest =>
    (sign = '+' || sign = '-') &&
      match oneOrTwoDigits rest with
      | some [] => true
      | some (':' :: minutes) => twoDigits minutes == some []
      | _ => false

/-- The separator between a date and a time. -/
def dropTimeMark : List Char → Option (List Char)
  | 'T' :: rest => some rest
  | 't' :: rest => some rest
  | cs =>
    let rest := cs.dropWhile fun c => c = ' ' || c = '\t'
    if rest.length < cs.length then some rest else none

/-- A date with a time of day. -/
def isMoment (cs : List Char) : Bool :=
  let year := cs.take 4
  let parsed := do
    let cs ← expect '-' (cs.drop 4)
    let cs ← oneOrTwoDigits cs
    let cs ← expect '-' cs
    let cs ← oneOrTwoDigits cs
    let cs ← dropTimeMark cs
    let cs ← oneOrTwoDigits cs
    let cs ← expect ':' cs
    let cs ← twoDigits cs
    let cs ← expect ':' cs
    twoDigits cs
  match parsed with
  | none => false
  | some rest =>
    let rest := match rest with
      | '.' :: fraction => fraction.dropWhile isDigit
      | _ => rest
    year.length == 4 && year.all isDigit && isZone rest

/-- What a plain scalar stands for. -/
def resolve (s : String) : Except DocumentFault Value :=
  let cs := s.toList
  if nullWords.contains s then .ok .null
  else if trueWords.contains s then .ok (.bool true)
  else if falseWords.contains s then .ok (.bool false)
  else
    match integer? cs with
    | some n => n.map .int
    | none =>
      match float? cs with
      | some x => x.map .float
      | none => .ok (.text s)

/-- The key that takes in the entries of other mappings. -/
def mergeKey : String := "<<"

/-- The scalar that stands for the value of its mapping. -/
def valueKey : String := "="

/-- A text that would stand for something else if it were written without quotes. -/
def isAmbiguous (s : String) : Bool :=
  s == mergeKey || s == valueKey || isDate s.toList || isMoment s.toList ||
    match resolve s with
    | .ok (.text _) => false
    | _ => true

end PinRing.Scalar
