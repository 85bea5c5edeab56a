import PinRing.Geometry.Point

/-! The causes that stop an operation on pins, slots, sections and assignments, with the wording of
each cause in `Fault.message?`. -/

namespace PinRing

/-- A mirror pair that could not be placed, and why. -/
structure MirrorFailure where
  pin : String
  partner : String
  reason : String
deriving DecidableEq

/-- The line that reports the failure of a pair. -/
def MirrorFailure.text (f : MirrorFailure) : String :=
  s!"{f.pin} -> {f.partner}: {f.reason}"

/-- Why an operation stopped. -/
inductive Fault where
  | duplicatePin (name : String)
  | unknownPin (name : String)
  /-- A pin that is named in a group while it already belongs to one. -/
  | alreadyGrouped (name : String)
  | selfMirror (name : String)
  /-- A slot, pin, row or column index past the end. -/
  | outOfRange
  /-- A cost model that prices nothing. -/
  | noCost
  /-- A point with no reflection. -/
  | offBoundary (p : Point)
  /-- A point that is in no order with the bounds of the core. -/
  | incomparable
  /-- A mirrored pin came up while a section was placed without a reflection. -/
  | reflectionMissing
  /-- A run over a table with mirrored pins was set up without a reflection. -/
  | reflectionRequired
  /-- Rows of different lengths. -/
  | raggedMatrix
  /-- Sections of no slots were asked for. -/
  | emptySections
  /-- A number in a message has too many digits to be written. -/
  | unwritable
  /-- Mirror pairs that could not be placed, where that is not tolerated. -/
  | unplacedMirrors (failures : List MirrorFailure)
deriving DecidableEq

/-- The wording of a fault.  An index past the end, a missing cost and bounds of the wrong kind have
none, and a point that cannot be written is reported as that. -/
def Fault.message? : Fault → Option String
  | duplicatePin name => some s!"Duplicate pin name '{name}'"
  | unknownPin name => some s!"Unknown pin '{name}'"
  | alreadyGrouped name => some s!"Pin '{name}' is already in a group"
  | selfMirror name => some s!"Pin '{name}' cannot mirror itself"
  | outOfRange => none
  | noCost => none
  | offBoundary p =>
    match p.text? with
    | some point => some s!"Point {point} is not on the core boundary"
    | none => some Text.unwritableReport
  | incomparable => none
  | reflectionMissing => some "Mirrored placement requires a reflect transform"
  | reflectionRequired => some "Mirrored pins require a reflect transform"
  | raggedMatrix => some "Cost matrix rows must all have the same length"
  | emptySections => some "range() arg 3 must not be zero"
  | unwritable => some Text.unwritableReport
  | unplacedMirrors failures =>
    some (s!"{failures.length} mirrored pin(s) could not be placed:\n  " ++
      "\n  ".intercalate (failures.map MirrorFailure.text))

/-- A part of a message, which is a fault where it cannot be written. -/
def written (text? : Option String) : Except Fault String :=
  match text? with
  | some text => .ok text
  | none => .error .unwritable

end PinRing
