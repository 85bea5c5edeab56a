import PinRing.Fault

/-! Assignments of rows to columns, and their cost under a matrix. -/

namespace PinRing

/-- For each row the column that it is matched to, if any. -/
abbrev Assignment := List (Option Nat)

namespace Assignment

/-- The row that a column is matched to; of several rows the last. -/
def rowOf? (a : Assignment) (col : Nat) : Option Nat :=
  go 0 none a
where
  go (row : Nat) (found : Option Nat) : Assignment → Option Nat
    | [] => found
    | entry :: rest => go (row + 1) (if entry = some col then some row else found) rest

theorem getElem?_of_rowOf?_go {col : Nat} {a : Assignment} {row first : Nat} {found : Option Nat}
    (h : rowOf?.go col first found a = some row) :
    found = some row ∨ ∃ k, row = first + k ∧ a[k]? = some (some col) := by
  induction a generalizing first found with
  | nil => exact .inl h
  | cons entry rest ih =>
    rcases ih h with h | ⟨k, rfl, hk⟩
    · split at h
      · next hcol => exact .inr ⟨0, by simpa using h.symm, by simp [hcol]⟩
      · exact .inl h
    · exact .inr ⟨k + 1, by omega, by simpa using hk⟩

/-- A row that is found for a column is matched to it. -/
theorem getElem?_of_rowOf? {a : Assignment} {col row : Nat} (h : a.rowOf? col = some row) :
    a[row]? = some (some col) := by
  rcases getElem?_of_rowOf?_go h with h | ⟨k, rfl, hk⟩
  · simp at h
  · simpa using hk

end Assignment

/-- A matrix of weights, row by row. -/
abbrev Weights := List (List Int)

namespace Weights

def entry (w : Weights) (row col : Nat) : Except Fault Int :=
  match w[row]?.bind (·[col]?) with
  | some v => .ok v
  | none => .error .outOfRange

/-- The sum of the matched cells of `a`, whose rows are numbered from `row` on. -/
def costFrom (w : Weights) (row : Nat) : Assignment → Except Fault Int
  | [] => .ok 0
  | none :: rest => costFrom w (row + 1) rest
  | some col :: rest => do
    let v ← w.entry row col
    let others ← costFrom w (row + 1) rest
    return v + others

def totalCost (w : Weights) (a : Assignment) : Except Fault Int :=
  w.costFrom 0 a

/-- All rows have `n` columns. -/
def hasWidth (w : Weights) (n : Nat) : Bool :=
  w.all (·.length == n)

/-- The matrix with rows and columns exchanged, for rows of length `n`. -/
def transpose (w : Weights) (n : Nat) : Weights :=
  (List.range n).map fun j => w.map fun row => row.getD j 0

end Weights

end PinRing
