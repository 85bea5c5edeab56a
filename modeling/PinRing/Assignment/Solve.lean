import PinRing.Assignment.Search

/-! The assignment problem: match as many rows and columns as possible at the least total weight.
Ties are decided by the order in which the search meets the columns. -/

namespace PinRing

namespace Weights

/-- The weight of a cell, by constant-time look-up. -/
def lookup (w : Array (Array Int)) (row col : Nat) : Int :=
  (w.getD row #[]).getD col 0

/-- The owners of the columns after every row has been inserted, for a matrix of at least as many
columns as rows. -/
def owners (w : Weights) (n m : Nat) : Array (Option Nat) :=
  let cells := (w.map List.toArray).toArray
  (Assignment.Labeling.afterRows (lookup cells) n m n).owner

/-- Matches every one of `n` rows to a column of its own out of `m`. -/
def solveWide (w : Weights) (n m : Nat) : Assignment :=
  let owner := (w.owners n m).toList
  (List.range n).map fun i => owner.findIdx? (· == some i)

/-- A matching of least cost for a matrix of `n` rows and `m` columns.  With more rows than columns,
the columns are matched to rows instead. -/
def solveSized (w : Weights) (n m : Nat) : Assignment :=
  if n ≤ m then
    w.solveWide n m
  else
    let rows := (w.transpose m).solveWide m n
    (List.range n).map fun i => rows.findIdx? (· == some i)

/-- A matching of as many rows as possible at least total weight. -/
def solve (w : Weights) : Except Fault Assignment :=
  match w with
  | [] => .ok []
  | first :: _ =>
    if w.hasWidth first.length then
      .ok (w.solveSized w.length first.length)
    else
      .error .raggedMatrix

end Weights

end PinRing
