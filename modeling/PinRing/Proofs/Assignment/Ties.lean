import PinRing.Proofs.Assignment.Rescaling

/-! Which columns the rows get when no row prefers one column to another: row `i` gets column `i`.
Weights that depend on the row alone are no weights at all, rescaled, so it is enough to follow the
search where there are none.  Every slack is zero there, and one slack has to be below another to
displace it: the rounds reach the columns from the first on, each of them from the root. -/

namespace PinRing.Assignment

/-- No cell weighs anything. -/
def weightless (_ _ : Nat) : Int := 0

/-- Each of the first `k` rows owns the column of its number, and all labels are zero. -/
structure Labeling.Diagonal (n k : Nat) (l : Labeling) : Prop where
  row : ∀ r < n, l.rowLabel.getD r 0 = 0
  col : ∀ j, l.colLabel.getD j 0 = 0
  owner : ∀ j, l.ownerOf j = if j < k then some j else none

namespace Search

variable {n m k t : Nat} {s : Search}

/-- A column that has no slack to the root. -/
def level (col : Nat) : Candidate := { col, slack := some 0 }

/-- The search for row `k` once it has reached the first `t` columns. -/
structure Level (n m k t : Nat) (s : Search) : Prop where
  holds : Holds weightless n m s
  labels : s.labels.Diagonal n k
  root : s.root = k
  offered : s.frontier.map (relax weightless s) = (List.range' t (m - t)).map level

theorem slackOf_weightless {l : Labeling} (h : l.Diagonal n k) {r : Nat} (hr : r < n) (col : Nat) :
    slackOf weightless l r col = 0 := by
  rw [slackOf, h.row r hr, h.col col]
  rfl

/-- Of columns at the same slack the first is the tightest. -/
theorem tightest?_level (t k : Nat) :
    tightest? ((List.range' t (k + 1)).map level) = some (level t, 0) := by
  induction k generalizing t with
  | zero => rfl
  | succ k ih =>
    rw [List.range'_succ, List.map_cons, tightest?, ih]
    rfl

theorem filter_level (ht : t < m) :
    ((List.range' t (m - t)).map level).filter (·.col != (level t).col) =
      (List.range' (t + 1) (m - (t + 1))).map level := by
  rw [show m - t = m - (t + 1) + 1 by omega, List.range'_succ, List.map_cons,
    List.filter_cons_of_neg (by simp [level])]
  refine List.filter_eq_self.mpr fun c hc => ?_
  obtain ⟨col, hcol, rfl⟩ := List.mem_map.mp hc
  have := (List.mem_range'_1.mp hcol).1
  simp only [level, bne_iff_ne]
  omega

theorem Level.lt (h : Level n m k t s) : k < n ∧ k < m := by
  have hlt : k < n := h.root ▸ h.holds.root_lt
  exact ⟨hlt, Nat.lt_of_lt_of_le hlt h.holds.le⟩

theorem Level.tightest?_eq (h : Level n m k t s) (ht : t ≤ k) :
    tightest? (s.frontier.map (relax weightless s)) = some (level t, 0) := by
  have hlt := h.lt.2
  rw [h.offered, show m - t = m - (t + 1) + 1 by omega]
  exact tightest?_level t _

theorem Level.move (h : Level n m k t s) : (s.moveLabels 0).Diagonal n k where
  row := by
    intro r hr
    rw [h.holds.rowLabel_move 0 hr, h.labels.row r hr]
    split <;> rfl
  col := by
    intro j
    rw [h.holds.colLabel_move 0, h.labels.col j]
    split <;> rfl
  owner := h.labels.owner

theorem start_level {l : Labeling} (h : l.Ready weightless n m k) (hl : l.Diagonal n k) (hk : k < n)
    (hle : n ≤ m) : Level n m k 0 (start l k) where
  holds := start_holds h hk hle
  labels := hl
  root := rfl
  offered := by
    have hrelax : ∀ col, relax weightless (start l k) { col } = level col := by
      intro col
      have hslack : slackOf weightless (start l k).labels (start l k).row col = 0 :=
        slackOf_weightless hl hk col
      simp only [relax, hslack]
      rfl
    have hfrontier : (start l k).frontier = (List.range m).map fun col => { col } := by
      rw [start, h.fits.owner_size]
    rw [hfrontier, List.map_map, List.range_eq_range']
    exact List.map_congr_left fun col _ => hrelax col

/-- Before column `k` comes up, a round reaches one more column. -/
theorem Level.reach (h : Level n m k t s) (ht : t < k) :
    ∃ next, s.round weightless = .reach next ∧ Level n m k (t + 1) next := by
  obtain ⟨hkn, hkm⟩ := h.lt
  have hround := round_eq (h.tightest?_eq (Nat.le_of_lt ht))
  have hown : s.labels.ownerOf (level t).col = some t := by
    rw [h.labels.owner]
    exact if_pos ht
  rw [hown] at hround
  rcases h.holds.round_cases with ⟨l, reached, col, hfound, -⟩ | ⟨next, hreach, hnext, hroot, -⟩
  · rw [hround] at hfound
    cases hfound
  refine ⟨next, hreach, hnext, ?_, hroot.trans h.root, ?_⟩
  · rw [hround] at hreach
    cases hreach
    exact h.move
  · rw [hround] at hreach
    cases hreach
    simp only [h.offered, filter_level (show t < m by omega), List.map_map]
    refine List.map_congr_left fun col _ => ?_
    -- zero is not below zero, so the pointer to the root stays
    have hslack := slackOf_weightless h.move (show t < n by omega) col
    simp only [Function.comp_apply, level, Option.map_some, relax, hslack]
    rfl

/-- When column `k` comes up it is free, and it comes from the root. -/
theorem Level.found (h : Level n m k k s) :
    s.round weightless = .found (s.moveLabels 0) (⟨k, none⟩ :: s.reached) k := by
  have hround := round_eq (h.tightest?_eq (Nat.le_refl k))
  have hown : s.labels.ownerOf (level k).col = none := by
    rw [h.labels.owner]
    exact if_neg (Nat.lt_irrefl k)
  rw [hown] at hround
  exact hround

theorem Level.insert (h : Level n m k k s) :
    ({ s.moveLabels 0 with owner := s.labels.owner.setIfInBounds k (some k) } :
      Labeling).Diagonal n (k + 1) where
  row := h.move.row
  col := h.move.col
  owner := by
    intro j
    have hown : s.labels.owner.getD j none = if j < k then some j else none := h.labels.owner j
    rw [Labeling.ownerOf, getD_setIfInBounds, hown, h.holds.fits.owner_size]
    by_cases hj : k = j
    · subst hj
      rw [if_pos ⟨rfl, h.lt.2⟩, if_pos (Nat.lt_succ_self k)]
    · rw [if_neg fun hboth => hj hboth.1]
      by_cases hjk : j < k
      · rw [if_pos hjk, if_pos (by omega)]
      · rw [if_neg hjk, if_neg (by omega)]

/-- The search for row `k` ends with the row in column `k`. -/
theorem Level.run (h : Level n m k t s) (ht : t ≤ k) {rounds : Nat} (hrounds : k < t + rounds) :
    (s.run weightless rounds).Diagonal n (k + 1) := by
  induction rounds generalizing s t with
  | zero => omega
  | succ rounds ih =>
    rcases Nat.lt_or_eq_of_le ht with hlt | rfl
    · obtain ⟨next, hround, hnext⟩ := h.reach hlt
      simp only [Search.run, hround]
      exact ih hnext hlt (by omega)
    · have hpath : pathTo t (⟨t, none⟩ :: s.reached) = [t] := by
        rw [pathTo, if_pos rfl]
      simp only [Search.run, h.found, hpath, flip, h.root]
      exact h.insert

end Search

namespace Labeling

theorem afterRows_diagonal {n m k : Nat} (hk : k ≤ n) (hle : n ≤ m) :
    (afterRows weightless n m k).Diagonal n k := by
  induction k with
  | zero => exact ⟨fun r _ => rowLabel_start n m r, colLabel_start n m, ownerOf_start n m⟩
  | succ k ih =>
    have hready := afterRows_ready weightless (show k ≤ n by omega) hle
    rw [afterRows_succ, insertRow, hready.fits.owner_size]
    exact (Search.start_level hready (ih (by omega)) hk hle).run (Nat.zero_le k) (by omega)

end Labeling

end PinRing.Assignment

namespace PinRing.Weights

open Assignment

variable {w : Weights} {n m : Nat}

/-- The cells of an empty matrix count as zero. -/
theorem value_nil : Weights.value [] = weightless := rfl

theorem solveWide_nil (hle : n ≤ m) : Weights.solveWide [] n m = (List.range n).map some := by
  have hready := Labeling.afterRows_ready weightless (Nat.le_refl n) hle
  have hdiagonal := Labeling.afterRows_diagonal (Nat.le_refl n) hle
  rw [solveWide_eq, owners_eq, value_nil]
  refine List.ext_getElem (by simp) fun i hi _ => ?_
  have hin : i < n := by simpa using hi
  have hown : (Labeling.afterRows weightless n m n).ownerOf i = some i := by
    rw [hdiagonal.owner, if_pos hin]
  have hcell := (getElem?_inverse hready.fits.columns_nodup).mpr ⟨hin, getElem?_owner.mpr hown⟩
  rw [List.getElem?_eq_getElem hi, Option.some.injEq] at hcell
  rw [hcell]
  simp

/-- Where weights depend on the row alone, every row gets the column of its number. -/
theorem solveWide_of_level {f : Nat → Int} (hle : n ≤ m)
    (hw : ∀ r < n, ∀ j < m, w.value r j = f r) : w.solveWide n m = (List.range n).map some := by
  have hrescales : Rescales (Weights.value []) w.value n m 1 f := by
    intro r hr j hj
    rw [hw r hr j hj, value_nil, weightless]
    omega
  rw [solveWide_rescale hrescales (by decide) hle, solveWide_nil hle]

/-- The rows of a matching in order are its columns in order. -/
theorem inverse_inOrder (n m : Nat) :
    Assignment.inverse ((List.range m).map some) n =
      (List.range n).map fun i => if i < m then some i else none := by
  rw [inverse]
  refine List.map_congr_left fun i _ => ?_
  by_cases hi : i < m
  · rw [if_pos hi, List.findIdx?_eq_some_iff_getElem]
    refine ⟨by simpa using hi, by simp, fun j hj => ?_⟩
    simp only [List.getElem_map, List.getElem_range, beq_iff_eq, Option.some.injEq]
    omega
  · rw [if_neg hi, List.findIdx?_eq_none_iff]
    intro entry hentry
    obtain ⟨j, hj, rfl⟩ := List.mem_map.mp hentry
    have := List.mem_range.mp hj
    simp only [beq_eq_false_iff_ne, ne_eq, Option.some.injEq]
    omega

/-- Where no row prefers one column to another or, with more rows than columns, no column one row to
another, the rows get the columns in order, as long as there are any. -/
theorem solve_indifferent (hw : w.hasWidth m) {f : Nat → Int}
    (hf : ∀ i < w.length, ∀ j < m, w.value i j = if w.length ≤ m then f i else f j) :
    w.solve =
      .ok ((List.range w.length).map fun i => if i < min w.length m then some i else none) := by
  rw [solve_eq hw]
  congr 1
  rcases Nat.lt_or_ge m w.length with hlt | hle
  · have htransposed : ∀ j < m, ∀ i < w.length, (w.transpose m).value j i = f j := by
      intro j hj i hi
      rw [value_transpose hj, hf i hi j hj, if_neg (Nat.not_le.mpr hlt)]
    rw [solveSized_of_lt w hlt, solveWide_of_level (Nat.le_of_lt hlt) htransposed, inverse_inOrder,
      Nat.min_eq_right (Nat.le_of_lt hlt)]
  · have hlevel : ∀ i < w.length, ∀ j < m, w.value i j = f i := by
      intro i hi j hj
      rw [hf i hi j hj, if_pos hle]
    rw [solveSized_of_le w hle, solveWide_of_level hle hlevel, Nat.min_eq_left hle]
    refine List.map_congr_left fun i hi => ?_
    rw [if_pos (List.mem_range.mp hi)]

theorem solve_indifferent_both_ways :
    let wide : Weights := [[7, 7, 7], [-2, -2, -2]]
    let tall : Weights := [[7, -2], [7, -2], [7, -2]]
    let f : Nat → Int := fun k => if k = 0 then 7 else -2
    (wide.hasWidth 3 ∧
      ∀ i < wide.length, ∀ j < 3, wide.value i j = if wide.length ≤ 3 then f i else f j) ∧
    (tall.hasWidth 2 ∧
      ∀ i < tall.length, ∀ j < 2, tall.value i j = if tall.length ≤ 2 then f i else f j) ∧
    wide.solve = .ok [some 0, some 1] ∧ tall.solve = .ok [some 0, some 1, none] := by
  intro wide tall f
  have hwide : ∀ i < wide.length, ∀ j < 3, wide.value i j =
      if wide.length ≤ 3 then f i else f j := by decide
  have htall : ∀ i < tall.length, ∀ j < 2, tall.value i j =
      if tall.length ≤ 2 then f i else f j := by decide
  exact ⟨⟨by decide, hwide⟩, ⟨by decide, htall⟩, solve_indifferent (by decide) hwide,
    solve_indifferent (by decide) htall⟩

end PinRing.Weights
