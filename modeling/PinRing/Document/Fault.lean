import PinRing.Text.Decimal

/-! Why a text has no value as a document.  A text is refused for its form, or for a number or
character in it that is written correctly but does not exist. -/

namespace PinRing

/-- The stage of reading at which a text was found to be no document. -/
inductive Stage where
  /-- A character that no document may hold. -/
  | characters
  /-- Characters that make up no token. -/
  | tokens
  /-- Tokens that do not fit together. -/
  | grammar
  /-- A second document after the first. -/
  | documents
  /-- A part that stands for no value where it is. -/
  | values
deriving DecidableEq

/-- Why a text has no value as a document. -/
inductive DocumentFault where
  | malformed (stage : Stage)
  /-- A number to a base that has no digits. -/
  | noDigits (base : Nat)
  /-- A number with too many digits to be read. -/
  | tooManyDigits (digits : Nat)
  /-- A code past the last character. -/
  | noCharacter
  /-- A code or a factor past the range in which such numbers are held. -/
  | overflow
deriving DecidableEq

def DocumentFault.message : DocumentFault → String
  | malformed _ => "<YAMLError>"
  | noDigits base => s!"invalid literal for int() with base {base}: ''"
  | tooManyDigits digits => Text.unreadableReport digits
  | noCharacter => "chr() arg not in range(0x110000)"
  | overflow => "a number is out of range"

end PinRing
