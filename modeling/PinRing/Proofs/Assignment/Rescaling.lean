import Mathlib.Tactic.Ring
import PinRing.Proofs.Assignment.Optimal

/-! Which matching the solver picks when all weights are multiplied by a positive number and those
of each row are then raised by a number of its own: the same one, ties included.  Two searches run
in lockstep.  The labels of columns and the slacks of candidates are multiplied, and the label of a
row is multiplied and raised as its weights are, from the first round of its search on. -/

namespace PinRing.Assignment

variable {weight other : Nat → Nat → Int} {n m k : Nat} {a : Int} {b : Nat → Int}

/-- The weights `other` are `a` times the weights `weight`, raised by `b r` in each row `r`. -/
def Rescales (weight other : Nat → Nat → Int) (n m : Nat) (a : Int) (b : Nat → Int) : Prop :=
  ∀ r < n, ∀ j < m, other r j = a * weight r j + b r

/-- What the label of a row is raised by once the rows before `k` have been reached. -/
def offset (b : Nat → Int) (k r : Nat) : Int := if r < k then b r else 0

theorem offset_of_lt {r : Nat} (h : r < k) : offset b k r = b r := if_pos h

theorem offset_of_le {r : Nat} (h : k ≤ r) : offset b k r = 0 := if_neg (Nat.not_lt.mpr h)

/-- The owners agree, and the labels are those of rescaled weights. -/
structure Labeling.Rescaled (n : Nat) (a : Int) (b : Nat → Int) (k : Nat) (l l' : Labeling) :
    Prop where
  owner : l'.owner = l.owner
  row : ∀ r < n, l'.rowLabel.getD r 0 = a * l.rowLabel.getD r 0 + offset b k r
  col : ∀ j, l'.colLabel.getD j 0 = a * l.colLabel.getD j 0

/-- The candidate with its slack multiplied by `a` and raised by `c`. -/
def Candidate.rescale (a c : Int) (k : Candidate) : Candidate :=
  { k with slack := k.slack.map (a * · + c) }

namespace Search

variable {s t : Search}

/-- What the slacks of the row reached last are raised by: its share where its label has not been
raised yet. -/
def lag (b : Nat → Int) (k : Nat) (s : Search) : Int := b s.row - offset b k s.row

/-- Two searches in lockstep.  Only before the first round is the label of the root not raised. -/
structure Rescaled (n : Nat) (a : Int) (b : Nat → Int) (k : Nat) (s t : Search) : Prop where
  labels : s.labels.Rescaled n a b k t.labels
  root : t.root = s.root
  row : t.row = s.row
  here : t.here = s.here
  reached : t.reached = s.reached
  frontier : t.frontier = s.frontier.map (Candidate.rescale a (s.lag b k))
  stage : s.reached = [] ∧ k = s.root ∨ k = s.root + 1

/-! ### One round -/

theorem lower_rescale (ha : 0 < a) (x c : Int) (slack : Option Int) :
    lower (a * x + c) (slack.map (a * · + c)) = lower x slack := by
  cases slack with
  | none => rfl
  | some y =>
    have : a * x + c < a * y + c ↔ x < y := by
      rw [Int.add_lt_add_iff_right]
      exact Int.mul_lt_mul_left ha
    simp only [lower, Option.map_some, this]

/-- The tightest candidate stays the same, ties included. -/
theorem tightest?_rescale (ha : 0 < a) (c : Int) (cs : List Candidate) :
    tightest? (cs.map (Candidate.rescale a c)) =
      (tightest? cs).map fun (best, d) => (best.rescale a c, a * d + c) := by
  induction cs with
  | nil => rfl
  | cons e rest ih =>
    obtain ⟨col, slack, via⟩ := e
    simp only [List.map_cons, tightest?, ih, Candidate.rescale]
    cases slack with
    | none => rfl
    | some x =>
      cases tightest? rest with
      | none => rfl
      | some found =>
        obtain ⟨best, y⟩ := found
        have : a * y + c < a * x + c ↔ y < x := by
          rw [Int.add_lt_add_iff_right]
          exact Int.mul_lt_mul_left ha
        simp only [Option.map_some, this]
        split <;> rfl

variable (hw : Rescales weight other n m a b) (hs : Holds weight n m s)
variable (h : Rescaled n a b k s t)

namespace Rescaled

include h

theorem rowsReached : t.rowsReached = s.rowsReached := by
  simp only [Search.rowsReached, h.root, h.reached, h.labels.owner]

include hw hs

theorem slackOf {j : Nat} (hj : j < m) :
    slackOf other t.labels t.row j = a * slackOf weight s.labels s.row j + s.lag b k := by
  have hrow := hs.rowsReached_lt hs.row_mem
  simp only [Search.slackOf, h.row, hw s.row hrow j hj, h.labels.row s.row hrow, h.labels.col, lag]
  ring

theorem relax (ha : 0 < a) {c : Candidate} (hc : c ∈ s.frontier) :
    relax other t (c.rescale a (s.lag b k)) = (relax weight s c).rescale a (s.lag b k) := by
  have hslack := h.slackOf hw hs (hs.frontier_lt hc)
  simp only [Search.relax, Candidate.rescale, hslack, h.here, lower_rescale ha]
  split <;> rfl

theorem offered (ha : 0 < a) :
    t.frontier.map (Search.relax other t) =
      (s.frontier.map (Search.relax weight s)).map (Candidate.rescale a (s.lag b k)) := by
  rw [h.frontier, List.map_map, List.map_map]
  exact List.map_congr_left fun c hc => h.relax hw hs ha hc

end Rescaled

omit t in
/-- Once the root has been reached no row lags behind. -/
theorem Holds.lag_eq_zero (hs : Holds weight n m s) : s.lag b (s.root + 1) = 0 := by
  rw [lag, offset_of_lt (Nat.lt_succ_of_le (hs.rowsReached_le hs.row_mem)), Int.sub_self]

include hs h in
/-- The move of a round raises the label of the root by its share, and no other. -/
theorem Rescaled.moveLabels (ht : Holds other n m t) (delta : Int) :
    (s.moveLabels delta).Rescaled n a b (s.root + 1)
      (t.moveLabels (a * delta + s.lag b k)) := by
  have hcol : s.reached = [] ∨ s.lag b k = 0 := by
    rcases h.stage with ⟨hnil, -⟩ | rfl
    · exact .inl hnil
    · exact .inr hs.lag_eq_zero
  refine ⟨h.labels.owner, fun r hr => ?_, fun j => ?_⟩
  · rw [ht.rowLabel_move _ hr, hs.rowLabel_move _ hr, h.rowsReached, h.labels.row r hr]
    rcases h.stage with ⟨hnil, rfl⟩ | rfl
    · -- the root is the only row reached, and its label has not been raised
      have hmem : r ∈ s.rowsReached ↔ r = s.root := by simp [Search.rowsReached, hnil]
      have hrow : s.row = s.root := by
        have := hs.row_mem
        simpa [Search.rowsReached, hnil] using this
      by_cases hroot : r = s.root
      · subst hroot
        rw [if_pos (hmem.mpr rfl), if_pos (hmem.mpr rfl), lag, hrow,
          offset_of_le (Nat.le_refl _), offset_of_lt (Nat.lt_succ_self _)]
        ring
      · have : offset b (s.root + 1) r = offset b s.root r := by
          simp only [offset]
          split <;> split <;> omega
        rw [if_neg (mt hmem.mp hroot), if_neg (mt hmem.mp hroot), this]
        ring
    · rw [hs.lag_eq_zero]
      split <;> ring
  · rw [ht.colLabel_move, hs.colLabel_move, h.reached, h.labels.col]
    rcases hcol with hnil | hlag
    · simp [hnil]
    · rw [hlag]
      split <;> ring

/-- What two rounds in lockstep lead to. -/
inductive Next.Rescaled (n : Nat) (a : Int) (b : Nat → Int) (root : Nat) : Next → Next → Prop
  | found {l l' : Labeling} (reached : List Reached) (col : Nat)
      (h : l.Rescaled n a b (root + 1) l') :
      Next.Rescaled n a b root (.found l reached col) (.found l' reached col)
  | reach {s t : Search} (h : Search.Rescaled n a b (root + 1) s t) :
      Next.Rescaled n a b root (.reach s) (.reach t)
  | stuck : Next.Rescaled n a b root .stuck .stuck

include hw hs h in
theorem Rescaled.round (ha : 0 < a) (ht : Holds other n m t) :
    Next.Rescaled n a b s.root (s.round weight) (t.round other) := by
  simp only [Search.round, h.offered hw hs ha, tightest?_rescale ha, h.reached]
  cases tightest? (s.frontier.map (Search.relax weight s)) with
  | none => exact .stuck
  | some found =>
    obtain ⟨best, delta⟩ := found
    have hlabels := h.moveLabels hs ht delta
    have hown : (t.moveLabels (a * delta + s.lag b k)).owner.getD best.col none =
        s.labels.ownerOf best.col := congrArg (·.getD best.col none) hlabels.owner
    simp only [Option.map_some, Candidate.rescale, hown]
    have hown' : (s.moveLabels delta).owner.getD best.col none = s.labels.ownerOf best.col := rfl
    simp only [hown']
    cases hrow : s.labels.ownerOf best.col with
    | none => exact .found _ _ hlabels
    | some row =>
      have hlag : b row - offset b (s.root + 1) row = 0 := by
        rw [offset_of_lt (Nat.lt_succ_of_lt (hs.fits.lt_of_owned hrow).1), Int.sub_self]
      refine .reach ⟨hlabels, h.root, rfl, rfl, rfl, ?_, .inr rfl⟩
      simp only [lag, hlag, List.filter_map, List.map_map]
      refine List.map_congr_left fun c _ => ?_
      simp only [Function.comp_apply, Candidate.rescale]
      cases (Search.relax weight s c).slack with
      | none => rfl
      | some d =>
        simp only [Option.map_some, Candidate.mk.injEq, Option.some.injEq, true_and, and_true]
        ring

include hw in
/-- Two searches in lockstep insert their row in the same way. -/
theorem Rescaled.run (ha : 0 < a) {rounds : Nat} (hs : Holds weight n m s) (ht : Holds other n m t)
    (h : Rescaled n a b k s t) (hrounds : m ≤ s.reached.length + rounds) :
    (s.run weight rounds).Rescaled n a b (s.root + 1) (t.run other rounds) := by
  induction rounds generalizing s t k with
  | zero =>
    have := hs.reached_length_lt
    omega
  | succ rounds ih =>
    have hround := h.round hw hs ha ht
    simp only [Search.run]
    rcases hs.round_cases with ⟨l, reached, col, hfound, -, -⟩ |
      ⟨next, hreach, hnext, hroot, -, hlength⟩
    · rw [hfound] at hround ⊢
      generalize t.round other = outcome at hround ⊢
      cases hround with
      | found _ _ hlabels =>
        refine ⟨?_, hlabels.row, hlabels.col⟩
        simp only [hlabels.owner, h.root]
    · rcases ht.round_cases with ⟨l', reached', col', hfound', -, -⟩ |
        ⟨next', hreach', hnext', -, -, -⟩
      · rw [hreach, hfound'] at hround
        cases hround
      · rw [hreach, hreach'] at hround ⊢
        cases hround with
        | reach hlock =>
          have := ih hnext hnext' hlock (by omega)
          rwa [hroot] at this

end Search

namespace Labeling

variable {l l' : Labeling} {i : Nat}

theorem Rescaled.insertRow (hw : Rescales weight other n m a b) (ha : 0 < a)
    (h : l.Rescaled n a b i l') (hl : l.Ready weight n m i) (hl' : l'.Ready other n m i)
    (hi : i < n) (hle : n ≤ m) :
    (l.insertRow weight i).Rescaled n a b (i + 1) (l'.insertRow other i) := by
  have hlock : Search.Rescaled n a b i (Search.start l i) (Search.start l' i) := by
    refine ⟨h, rfl, rfl, rfl, rfl, ?_, .inl ⟨rfl, rfl⟩⟩
    simp [Search.start, h.owner, Candidate.rescale, Function.comp_def]
  have hsize : l'.owner.size = l.owner.size := congrArg Array.size h.owner
  rw [Labeling.insertRow, Labeling.insertRow, hsize, hl.fits.owner_size]
  exact hlock.run hw ha (Search.start_holds hl hi hle) (Search.start_holds hl' hi hle)
    (Nat.le_add_left _ _)

/-- After the first `i` rows the labels are those of rescaled weights. -/
theorem afterRows_rescaled (hw : Rescales weight other n m a b) (ha : 0 < a) (hi : i ≤ n)
    (hle : n ≤ m) : (afterRows weight n m i).Rescaled n a b i (afterRows other n m i) := by
  induction i with
  | zero =>
    refine ⟨rfl, fun r _ => ?_, fun j => ?_⟩
    · show (start n m).rowLabel.getD r 0 = a * (start n m).rowLabel.getD r 0 + offset b 0 r
      rw [rowLabel_start, offset_of_le (Nat.zero_le r)]
      omega
    · show (start n m).colLabel.getD j 0 = a * (start n m).colLabel.getD j 0
      rw [colLabel_start]
      omega
  | succ i ih =>
    rw [afterRows_succ, afterRows_succ]
    exact (ih (by omega)).insertRow hw ha (afterRows_ready weight (by omega) hle)
      (afterRows_ready other (by omega) hle) (by omega) hle

end Labeling

end PinRing.Assignment

namespace PinRing.Weights

open Assignment

variable {w w' : Weights} {n m : Nat} {a : Int} {b : Nat → Int}

/-- The weights multiplied by `a`, and those of each row raised by its entry in `b`. -/
def rescaleRows (w : Weights) (a : Int) (b : Nat → Int) : Weights :=
  w.mapIdx fun i row => row.map (a * · + b i)

/-- The weights multiplied by `a`, and those of each column raised by its entry in `b`. -/
def rescaleCols (w : Weights) (a : Int) (b : Nat → Int) : Weights :=
  w.map fun row => row.mapIdx fun j x => a * x + b j

theorem solveWide_rescale (h : Rescales w.value w'.value n m a b) (ha : 0 < a) (hle : n ≤ m) :
    w'.solveWide n m = w.solveWide n m := by
  rw [solveWide_eq, solveWide_eq, owners_eq, owners_eq,
    (Labeling.afterRows_rescaled h ha (Nat.le_refl n) hle).owner]

theorem value_rescaleRows (hw : w.hasWidth m) {i j : Nat} (hi : i < w.length) (hj : j < m) :
    (w.rescaleRows a b).value i j = a * w.value i j + b i := by
  have := length_of_hasWidth hw hi
  simp [value, rescaleRows, hi, hj, this]

theorem value_rescaleCols (hw : w.hasWidth m) {i j : Nat} (hi : i < w.length) (hj : j < m) :
    (w.rescaleCols a b).value i j = a * w.value i j + b j := by
  have := length_of_hasWidth hw hi
  simp [value, rescaleCols, hi, hj, this]

theorem hasWidth_rescaleRows (hw : w.hasWidth m) : (w.rescaleRows a b).hasWidth m := by
  refine List.all_eq_true.mpr fun row hrow => ?_
  obtain ⟨i, hi, rfl⟩ := List.mem_mapIdx.mp hrow
  simpa using length_of_hasWidth hw hi

theorem hasWidth_rescaleCols (hw : w.hasWidth m) : (w.rescaleCols a b).hasWidth m := by
  refine List.all_eq_true.mpr fun row hrow => ?_
  obtain ⟨given, hgiven, rfl⟩ := List.mem_map.mp hrow
  simpa using List.all_eq_true.mp hw given hgiven

/-- Multiplying all weights by a positive number does not change the answer, ties included.  Nor
does raising the weights of each row where there are no more rows than columns, or those of each
column where there are more. -/
theorem solve_rescale (hw : w.hasWidth m) (ha : 0 < a) (b : Nat → Int) :
    ∃ answer, w.solve = .ok answer ∧
      (w.length ≤ m → (w.rescaleRows a b).solve = .ok answer) ∧
      (m < w.length → (w.rescaleCols a b).solve = .ok answer) := by
  refine ⟨w.solveSized w.length m, solve_eq hw, fun hle => ?_, fun hlt => ?_⟩
  · have hlength : (w.rescaleRows a b).length = w.length := by simp [rescaleRows]
    rw [solve_eq (hasWidth_rescaleRows hw), hlength, solveSized_of_le _ hle, solveSized_of_le _ hle,
      solveWide_rescale (fun r hr j hj => value_rescaleRows hw hr hj) ha hle]
  · have hlength : (w.rescaleCols a b).length = w.length := by simp [rescaleCols]
    -- the columns are the rows of the transposed matrix
    have hrescales : Rescales (w.transpose m).value ((w.rescaleCols a b).transpose m).value
        m w.length a b := by
      intro j hj r hr
      rw [value_transpose hj, value_transpose hj, value_rescaleCols hw hr hj]
    rw [solve_eq (hasWidth_rescaleCols hw), hlength, solveSized_of_lt _ hlt, solveSized_of_lt _ hlt,
      solveWide_rescale hrescales ha (Nat.le_of_lt hlt)]

theorem solve_rescale_ties :
    let w : Weights := [[4, 4, 4], [4, -1, -1]]
    let v : Weights := [[4, 4], [4, -1], [4, -1]]
    let b : Nat → Int := fun i => 7 - 30 * i
    (w.hasWidth 3 ∧ v.hasWidth 2 ∧ (0 : Int) < 5) ∧
      w.rescaleRows 5 b = [[27, 27, 27], [-3, -28, -28]] ∧
      v.rescaleCols 5 b = [[27, -3], [27, -28], [27, -28]] ∧
      (∃ answer, w.solve = .ok answer ∧ (w.rescaleRows 5 b).solve = .ok answer) ∧
      ∃ answer, v.solve = .ok answer ∧ (v.rescaleCols 5 b).solve = .ok answer := by
  intro w v b
  obtain ⟨wide, hwide, hrows, -⟩ :=
    solve_rescale (w := w) (m := 3) (a := 5) (by decide) (by decide) b
  obtain ⟨tall, htall, -, hcols⟩ :=
    solve_rescale (w := v) (m := 2) (a := 5) (by decide) (by decide) b
  exact ⟨by decide, by decide, by decide, ⟨wide, hwide, hrows (by decide)⟩,
    tall, htall, hcols (by decide)⟩

end PinRing.Weights
