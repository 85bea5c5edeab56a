/-! File paths: their plain form, and the name of an output beside its input. -/

namespace PinRing.Path

/-- The parts between slashes that mean something: neither empty nor a single point. -/
def parts (path : String) : List String :=
  (path.splitOn "/").filter fun part => part != "" && part != "."

/-- The root that a path begins with: none, one slash, or exactly two. -/
def root (path : String) : String :=
  match path.toList.takeWhile (· = '/') with
  | [] => ""
  | ['/', '/'] => "//"
  | _ => "/"

/-- The path without repeated slashes and single points; a point stands for an empty path. -/
def plain (path : String) : String :=
  let text := root path ++ "/".intercalate (parts path)
  if text.isEmpty then "." else text

/-- A file name without its ending, which begins at the last point.  A point at either end of the
name begins no ending. -/
def stem (name : String) : String :=
  let cs := name.toList
  let ending := cs.reverse.takeWhile (· != '.')
  let before := cs.take (cs.length - ending.length - 1)
  if ending.isEmpty || before.isEmpty || ending.length = cs.length then name
  else String.ofList before

/-- The plain path with another ending of its file name. -/
def withEnding (path ending : String) : String :=
  match (parts path).reverse with
  | [] => plain path
  | name :: above =>
    root path ++ "/".intercalate (above.reverse ++ [stem name ++ ending])

end PinRing.Path
