import PinRing.Document.Format
import PinRing.Document.Node
import PinRing.Document.Writer

/-! The format of problem, settings and result files.  What holds of files holds in every format;
only the program itself and single cases need this one. -/

namespace PinRing.Document

/-- YAML, of which problem and settings files use a part; results are written in its block style. -/
def yaml : TextFormat where
  read := read
  write := Writer.write

end PinRing.Document
