import PinRing.CommandLine.Run
import PinRing.Document.Yaml

/-! The program: reads the files that a command names, carries it out, prints what it has to say and
writes its result. -/

namespace PinRing

open CommandLine

/-- The number of an error; some calls of the system give the negative of it. -/
def isError (number code : UInt32) : Bool := code = number || code = 0 - number

/-- Looks up what is under a path. -/
def readContent (path : String) : IO FileContent := do
  if Path.hasNull path then return .missing
  try
    return .text (← IO.FS.readFile path)
  catch
    | .noFileOrDirectory .. => return .missing
    | .inappropriateType _ code _ => return if isError 20 code then .belowFile else .directory
    | e@(.invalidArgument _ code _) => if isError 36 code then return .nameTooLong else throw e
    | e => throw e

/-- The contents of some files, by path. -/
def readContents (paths : List String) : IO (String → FileContent) := do
  let found ← paths.mapM fun path => return (path, ← readContent path)
  return fun path => (found.lookup path).getD .missing

/-- Runs a command on the files of the file system. -/
def runCommand (c : Command) : IO UInt32 := do
  let files ← readContents c.inputs
  let e := c.execute Document.yaml files
  for line in logLines c.logLevel e.log do
    IO.eprintln line
  IO.print e.output
  match e.ending with
  | .exit status => return status.toUInt32
  | .save path text? closing status =>
    IO.FS.writeFile path (text?.getD "")
    match text? with
    | some _ =>
      IO.print closing
      return status.toUInt32
    | none =>
      IO.eprintln Text.unwritableReport
      return 1
  | .escape cause =>
    IO.eprintln (cause.message)
    return 1

end PinRing

open PinRing CommandLine

/-- Answers one command line; the exit status tells how it went. -/
def main (args : List String) : IO UInt32 := do
  match request args with
  | .run command => runCommand command
  | .help => IO.println usage; return 0
  | .version => IO.println versionLine; return 0
  | .nothing => IO.println usage; return 1
  | .misuse => IO.eprintln usage; return 2
