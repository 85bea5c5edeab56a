import PinRing.Document.Fault
import PinRing.Document.Value

/-! How values are kept in texts. -/

namespace PinRing

/-- What a text is read as, and the text that a value is written as. -/
structure TextFormat where
  read : String → Except DocumentFault Value
  write : Value → String

end PinRing
