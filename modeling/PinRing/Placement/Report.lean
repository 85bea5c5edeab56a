import PinRing.Placement.Pass

/-! The result of a placement run. -/

namespace PinRing

/-- What a run did, in figures and diagnostics. -/
structure Report where
  /-- Every pin has a place and nothing went wrong. -/
  success : Bool := true
  sections : Nat := 0
  placed : Nat := 0
  totalCost : Int := 0
  warnings : List Diagnostic := []
  errors : List Diagnostic := []
  unplaced : List String := []

namespace Report

/-- Adds what one pass did. -/
def absorb (r : Report) (pass : PassResult) : Report :=
  { r with
    placed := r.placed + pass.placed.length
    totalCost := r.totalCost + pass.cost
    warnings := r.warnings ++ pass.warnings
    errors := r.errors ++ pass.errors }

/-- A line of the summary that is left out when there is nothing to count. -/
def countLine (label : String) (n : Nat) : List String :=
  if n = 0 then [] else [s!"{label}{n}"]

/-- The summary of a run, one figure a line. -/
def summary (r : Report) : String :=
  "\n".intercalate <|
    [s!"Sections:   {r.sections}", s!"Placed:     {r.placed}", s!"Total cost: {r.totalCost}"] ++
      countLine "Warnings:   " r.warnings.length ++
      countLine "Errors:     " r.errors.length ++
      (if r.unplaced.isEmpty then [] else ["Unplaced:   " ++ ", ".intercalate r.unplaced])

end Report

/-- How a run ends: with its report, or with mirror pairs that could not be placed and the report on
everything else. -/
inductive Verdict where
  | placed (report : Report)
  | mirrorsFailed (failures : List MirrorFailure) (report : Report)

def Verdict.report : Verdict → Report
  | placed r => r
  | mirrorsFailed _ r => r

/-- The fault that a verdict amounts to. -/
def Verdict.fault? : Verdict → Option Fault
  | placed _ => none
  | mirrorsFailed failures _ => some (.unplacedMirrors failures)

end PinRing
