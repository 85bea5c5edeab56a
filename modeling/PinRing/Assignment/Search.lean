import PinRing.Assignment.Basic

/-! The search that inserts one row into a matching of least cost.  Rows and columns carry labels
whose sum never exceeds the weight of their cell and equals it on matched cells.  From the new row
the search reaches columns one by one, always the one of least slack, and moves the labels so that
every column reached is tight; it ends at the first column without a row, and the columns on the
way to it change hands. -/

namespace PinRing.Assignment

/-- The labels and the matching between two insertions. -/
structure Labeling where
  rowLabel : Array Int
  colLabel : Array Int
  /-- The row matched to each column. -/
  owner : Array (Option Nat)

/-- No row matched, all labels zero, for `n` rows and `m` columns. -/
def Labeling.start (n m : Nat) : Labeling :=
  { rowLabel := Array.replicate n 0
    colLabel := Array.replicate m 0
    owner := Array.replicate m none }

/-- A column that the search has not reached. -/
structure Candidate where
  col : Nat
  /-- The least slack of the column to any row reached; none before the first row is scanned. -/
  slack : Option Int := none
  /-- The column reached last before the least slack was found, or none for the new row itself. -/
  via : Option Nat := none
deriving DecidableEq

/-- A column that the search has reached, from `via`. -/
structure Reached where
  col : Nat
  via : Option Nat
deriving DecidableEq

/-- The state of a search between two rounds. -/
structure Search where
  /-- The row being inserted. -/
  root : Nat
  labels : Labeling
  /-- The row reached last. -/
  row : Nat
  /-- The column through which `row` was reached; none for the root. -/
  here : Option Nat := none
  /-- The columns reached, the latest first. -/
  reached : List Reached := []
  /-- The columns not reached, in ascending order. -/
  frontier : List Candidate

namespace Search

variable (weight : Nat → Nat → Int)

/-- The search for row `root` before its first round. -/
def start (labels : Labeling) (root : Nat) : Search :=
  { root, labels, row := root,
    frontier := (List.range labels.owner.size).map fun col => { col } }

/-- The weight of a cell less its labels. -/
def slackOf (l : Labeling) (row col : Nat) : Int :=
  weight row col - l.rowLabel.getD row 0 - l.colLabel.getD col 0

/-- Whether a slack is below another, where none is above all. -/
def lower (a : Int) : Option Int → Bool
  | none => true
  | some b => a < b

/-- Offers a candidate the slack to the row reached last. -/
def relax (s : Search) (c : Candidate) : Candidate :=
  let slack := slackOf weight s.labels s.row c.col
  if lower slack c.slack then { c with slack := some slack, via := s.here } else c

/-- The first candidate of least slack, with that slack. -/
def tightest? : List Candidate → Option (Candidate × Int)
  | [] => none
  | c :: rest =>
    match c.slack, tightest? rest with
    | none, best => best
    | some a, none => some (c, a)
    | some a, some (d, b) => if b < a then some (d, b) else some (c, a)

/-- The rows reached: the root and the owners of the columns reached. -/
def rowsReached (s : Search) : List Nat :=
  s.root :: s.reached.filterMap fun r => s.labels.owner.getD r.col none

/-- Raises the labels of the rows reached by `delta` and lowers those of the columns reached. -/
def moveLabels (s : Search) (delta : Int) : Labeling :=
  { s.labels with
    rowLabel := s.rowsReached.foldl (fun l i => l.modify i (· + delta)) s.labels.rowLabel
    colLabel := s.reached.foldl (fun l r => l.modify r.col (· - delta)) s.labels.colLabel }

/-- What a round leads to. -/
inductive Next where
  /-- A column without a row: the search is over. -/
  | found (labels : Labeling) (reached : List Reached) (col : Nat)
  | reach (s : Search)
  /-- No column is left. -/
  | stuck

/-- One round: offers all candidates the slack to the row reached last, moves the labels by the
least slack, and reaches the first column that attains it. -/
def round (s : Search) : Next :=
  let offered := s.frontier.map (relax weight s)
  match tightest? offered with
  | none => .stuck
  | some (best, delta) =>
    let labels := s.moveLabels delta
    let reached := ⟨best.col, best.via⟩ :: s.reached
    match labels.owner.getD best.col none with
    | none => .found labels reached best.col
    | some row =>
      .reach
        { root := s.root, labels, row, here := some best.col, reached
          frontier := (offered.filter (·.col != best.col)).map fun c =>
            { c with slack := c.slack.map (· - delta) } }

/-- The columns on the way from `col` back to the root, for `reached` the latest first. -/
def pathTo (col : Nat) : List Reached → List Nat
  | [] => []
  | r :: rest =>
    if r.col = col then
      match r.via with
      | none => [col]
      | some back => col :: pathTo back rest
    else
      pathTo col rest

/-- Hands each column on a path the row of the next one, and the last column the new row. -/
def flip (owner : Array (Option Nat)) (root : Nat) : List Nat → Array (Option Nat)
  | [] => owner
  | [col] => owner.setIfInBounds col (some root)
  | col :: back :: rest => flip (owner.setIfInBounds col (owner.getD back none)) root (back :: rest)

/-- Rounds up to the first column without a row.  `rounds` bounds their number; as many as there are
columns suffice. -/
def run (s : Search) : Nat → Labeling
  | 0 => s.labels
  | rounds + 1 =>
    match s.round weight with
    | .stuck => s.labels
    | .found labels reached col =>
      { labels with owner := flip labels.owner s.root (pathTo col reached) }
    | .reach next => next.run rounds

end Search

/-- The labels and matching after row `i` has joined. -/
def Labeling.insertRow (weight : Nat → Nat → Int) (l : Labeling) (i : Nat) : Labeling :=
  (Search.start l i).run weight l.owner.size

/-- The labels and matching after the rows `0` to `k - 1` have joined, of `n` rows and `m`
columns. -/
def Labeling.afterRows (weight : Nat → Nat → Int) (n m k : Nat) : Labeling :=
  (List.range k).foldl (·.insertRow weight) (.start n m)

end PinRing.Assignment
