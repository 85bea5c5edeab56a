import PinRing.Proofs.Assignment.Search

/-! Rounds, searches and insertions.  Every round reaches one more column or ends the search at a
free one; there are at most as many rounds as rows inserted before, plus one.  An insertion leaves
labels that fit one more row, and these are a dual solution that proves the matching optimal. -/

namespace PinRing.Assignment

namespace Search

variable {weight : Nat → Nat → Int} {n m : Nat} {s : Search}

/-- What the tightest candidate of a round is: its slack is the least over all rows reached and all
columns not reached, and not negative once a column has been reached. -/
structure Best (weight : Nat → Nat → Int) (s : Search) (best : Candidate) (delta : Int) : Prop where
  col_mem : ∃ c ∈ s.frontier, c.col = best.col
  joined : Joined weight s.labels s.root s.reached best.via best.col delta
  least : ∀ r ∈ s.rowsReached, ∀ c ∈ s.frontier, delta ≤ slackOf weight s.labels r c.col
  nonneg : s.reached ≠ [] → 0 ≤ delta

namespace Holds

variable (h : Holds weight n m s)

include h

/-- There is a tightest candidate in every round. -/
theorem exists_best : ∃ best delta,
    tightest? (s.frontier.map (relax weight s)) = some (best, delta) ∧
      Best weight s best delta := by
  obtain ⟨c, hc⟩ := List.exists_mem_of_ne_nil _ h.frontier_ne_nil
  cases htight : tightest? (s.frontier.map (relax weight s)) with
  | none =>
    obtain ⟨d, hd⟩ := h.relax_settled hc
    have := tightest?_some.none_of_tightest? htight _ (List.mem_map_of_mem hc)
    rw [hd.slack] at this
    cases this
  | some found =>
    obtain ⟨best, delta⟩ := found
    obtain ⟨hmem, hslack, hmin⟩ := tightest?_some htight
    obtain ⟨c, hc, rfl⟩ := List.mem_map.mp hmem
    obtain ⟨d, hd⟩ := h.relax_settled hc
    obtain rfl : d = delta := Option.some.inj (hd.slack.symm.trans hslack)
    refine ⟨_, d, rfl, ⟨c, hc, (col_relax s c).symm⟩, ?_, ?_, ?_⟩
    · simpa using hd.joined
    · intro r hr c' hc'
      obtain ⟨d', hd'⟩ := h.relax_settled hc'
      have hle := hmin _ (List.mem_map_of_mem hc') d' hd'.slack
      have := hd'.bound r hr
      rw [col_relax] at this
      exact Int.le_trans hle this
    · intro hreached
      obtain ⟨r, hr, -, hslack⟩ := hd.joined.row_mem
      rw [← hslack, col_relax]
      rcases Nat.lt_or_eq_of_le (h.rowsReached_le hr) with hlt | rfl
      · exact h.fits.slack_nonneg r hlt c.col (h.frontier_lt hc)
      · exact h.root_fits hreached c.col (h.frontier_lt hc)

variable {best : Candidate} {delta : Int}

/-- The candidates that a round leaves. -/
theorem offered_reach {row : Nat} (hown : s.labels.ownerOf best.col = some row)
    {frontier : List Candidate} {c : Candidate} (hc : c ∈ s.frontier) :
    Offered weight
      { root := s.root, labels := s.moveLabels delta, row, here := some best.col
        reached := ⟨best.col, best.via⟩ :: s.reached, frontier }
      { relax weight s c with slack := (relax weight s c).slack.map (· - delta) } := by
  obtain ⟨d, hd⟩ := h.relax_settled hc
  have hout : c.col ∉ s.reached.map (·.col) := h.frontier_not_reached hc
  constructor
  · intro hnone
    rw [hd.slack] at hnone
    cases hnone
  · intro d' hd'
    rw [hd.slack] at hd'
    obtain rfl := Option.some.inj hd'
    have := h.joined_move delta hd.joined fun _ hx => hx
    rw [col_relax, if_neg hout, Int.add_zero] at this
    simp only [col_relax]
    exact ⟨fun k hk => List.mem_cons_of_mem _ (this.via_mem k hk), this.row⟩
  · intro d' hd' r hr hne
    rw [hd.slack] at hd'
    obtain rfl := Option.some.inj hd'
    have hold : r ∈ s.rowsReached := by
      rcases mem_rowsReached.mp hr with rfl | ⟨e, he, hrow⟩
      · exact mem_rowsReached.mpr (.inl rfl)
      · rcases List.mem_cons.mp he with rfl | he
        · exact absurd (Option.some.inj (hrow.symm.trans hown)) hne
        · exact mem_rowsReached.mpr (.inr ⟨e, he, hrow⟩)
    have hbound := hd.bound r hold
    have hslack := h.slackOf_move delta (h.rowsReached_lt hold) c.col
    rw [if_pos hold, if_neg hout] at hslack
    simp only [col_relax] at hbound ⊢
    omega

variable (hbest : Best weight s best delta)

include hbest

theorem best_not_reached : best.col ∉ s.reached.map (·.col) := by
  obtain ⟨c, hc, hcol⟩ := hbest.col_mem
  exact hcol ▸ h.frontier_not_reached hc

theorem best_lt : best.col < m := by
  obtain ⟨c, hc, hcol⟩ := hbest.col_mem
  exact hcol ▸ h.frontier_lt hc

/-- The tightest candidate is tight once the labels have moved. -/
theorem traced_best :
    Traced weight (s.moveLabels delta) s.root (⟨best.col, best.via⟩ :: s.reached) := by
  refine ⟨?_, h.traced_move delta h.traced fun _ hx => hx⟩
  have := h.joined_move delta hbest.joined fun _ hx => hx
  rwa [if_neg (h.best_not_reached hbest), show delta - delta + 0 = 0 by omega] at this

theorem reached_best_nodup : (best.col :: s.reached.map (·.col)).Nodup :=
  List.nodup_cons.mpr ⟨h.best_not_reached hbest, h.reached_nodup⟩

/-- A round that finds a column without a row ends the search. -/
theorem ended_of_free (hfree : s.labels.ownerOf best.col = none) :
    Ended weight n m s.root (s.moveLabels delta) (⟨best.col, best.via⟩ :: s.reached) best.col where
  fits := h.move_fits hbest.least hbest.nonneg
  row_zero := fun _ hr => h.move_row_zero delta hr
  root_fits := fun _ hj => h.move_root_fits hbest.least hj
  nodup := h.reached_best_nodup hbest
  col_lt := by
    intro e he
    rcases List.mem_cons.mp he with rfl | he
    · exact h.best_lt hbest
    · exact h.reached_lt he
  col_mem := List.mem_cons_self
  traced := h.traced_best hbest
  free := hfree

/-- The columns after a round: the tightest one has moved from the frontier to those reached. -/
theorem columns_reach :
    ((best.col :: s.reached.map (·.col)) ++
      (s.frontier.map (·.col)).filter (· != best.col)).Perm (List.range m) := by
  have hmem : best.col ∈ s.frontier.map (·.col) := by
    obtain ⟨c, hc, hcol⟩ := hbest.col_mem
    exact hcol ▸ List.mem_map_of_mem hc
  refine List.Perm.trans ?_ h.columns
  rw [← h.frontier_nodup.erase_eq_filter best.col, List.cons_append]
  refine List.Perm.trans List.perm_middle.symm ?_
  exact List.Perm.append_left _ (List.perm_cons_erase hmem).symm

/-- A round that reaches one more row keeps the invariant. -/
theorem reach_holds {row : Nat} (hown : s.labels.ownerOf best.col = some row) :
    Holds weight n m
      { root := s.root, labels := s.moveLabels delta, row, here := some best.col
        reached := ⟨best.col, best.via⟩ :: s.reached
        frontier := ((s.frontier.map (relax weight s)).filter (·.col != best.col)).map fun c =>
          { c with slack := c.slack.map (· - delta) } } where
  fits := h.move_fits hbest.least hbest.nonneg
  row_zero := fun _ hr => h.move_row_zero delta hr
  root_lt := h.root_lt
  le := h.le
  root_fits := fun _ _ hj => h.move_root_fits hbest.least hj
  columns := by
    have hcols : (((s.frontier.map (relax weight s)).filter (·.col != best.col)).map fun c =>
        { c with slack := c.slack.map (· - delta) : Candidate }).map (·.col) =
        (s.frontier.map (·.col)).filter (· != best.col) := by
      simp [List.filter_map, Function.comp_def]
    rw [hcols]
    exact h.columns_reach hbest
  owned := by
    intro e he
    rcases List.mem_cons.mp he with rfl | he
    · exact ⟨row, hown⟩
    · exact h.owned e he
  here := rfl
  row := hown
  offered := by
    intro c' hc'
    obtain ⟨c'', hc'', rfl⟩ := List.mem_map.mp hc'
    obtain ⟨c, hc, rfl⟩ := List.mem_map.mp (List.mem_of_mem_filter hc'')
    exact h.offered_reach hown hc
  traced := h.traced_best hbest

end Holds

/-- What a round leads to, by the tightest candidate. -/
theorem round_eq {best : Candidate} {delta : Int}
    (htight : tightest? (s.frontier.map (relax weight s)) = some (best, delta)) :
    s.round weight =
      match s.labels.ownerOf best.col with
      | none => .found (s.moveLabels delta) (⟨best.col, best.via⟩ :: s.reached) best.col
      | some row =>
        .reach
          { root := s.root, labels := s.moveLabels delta, row, here := some best.col
            reached := ⟨best.col, best.via⟩ :: s.reached
            frontier := ((s.frontier.map (relax weight s)).filter (·.col != best.col)).map fun c =>
              { c with slack := c.slack.map (· - delta) } } := by
  rw [← moveLabels_ownerOf s delta best.col]
  simp only [round, htight]
  rfl

/-- What a round does: it ends at a column without a row, or reaches one more column. -/
theorem Holds.round_cases (h : Holds weight n m s) :
    (∃ l reached col, s.round weight = .found l reached col ∧
      Ended weight n m s.root l reached col ∧ l.owner = s.labels.owner) ∨
    (∃ next, s.round weight = .reach next ∧ Holds weight n m next ∧ next.root = s.root ∧
      next.labels.owner = s.labels.owner ∧ next.reached.length = s.reached.length + 1) := by
  obtain ⟨best, delta, htight, hbest⟩ := h.exists_best
  have hround := round_eq htight
  cases hown : s.labels.ownerOf best.col with
  | none =>
    rw [hown] at hround
    exact .inl ⟨_, _, _, hround, h.ended_of_free hbest hown, rfl⟩
  | some row =>
    rw [hown] at hround
    exact .inr ⟨_, hround, h.reach_holds hbest hown, rfl, rfl, rfl⟩

/-! ### The path back to the root -/

/-- The path from a column reached leads over columns reached, none twice, each of which is tight
with the row of the next. -/
theorem Traced.path {l : Labeling} {root col : Nat} {reached : List Reached}
    (h : Traced weight l root reached) (hcol : col ∈ reached.map (·.col)) :
    ∃ path, pathTo col reached = col :: path ∧ (col :: path).Sublist (reached.map (·.col)) ∧
      TightPath (fun r j => slackOf weight l r j = 0) l.owner root (col :: path) := by
  -- The latest column comes first, so the way back from it goes on among the rest.
  induction reached generalizing col with
  | nil => cases hcol
  | cons e rest ih =>
    by_cases he : e.col = col
    · obtain ⟨⟨hvia, r, hr, hslack⟩, hrest⟩ := h
      rw [he] at hslack
      cases hv : e.via with
      | none =>
        rw [hv] at hr
        obtain rfl := Option.some.inj hr
        refine ⟨[], by simp [pathTo, he, hv], ?_, hslack⟩
        simp [he]
      | some back =>
        rw [hv] at hr
        obtain ⟨path, hpath, hsub, htight⟩ := ih hrest (hvia back hv)
        refine ⟨back :: path, by simp [pathTo, he, hv, hpath], ?_, ⟨r, hr, hslack⟩, htight⟩
        rw [List.map_cons, he]
        exact hsub.cons_cons col
    · have hmem : col ∈ rest.map (·.col) := by
        rcases List.mem_cons.mp hcol with heq | hmem
        · exact absurd heq.symm he
        · exact hmem
      obtain ⟨path, hpath, hsub, htight⟩ := ih h.2 hmem
      exact ⟨path, by simp [pathTo, he, hpath], hsub.cons _, htight⟩

/-- Before the flip, the free column at the end of a search is the next to get a row. -/
theorem Ended.vacant {l : Labeling} {root col : Nat} {reached : List Reached}
    (h : Ended weight n m root l reached col) :
    Vacant (fun r j => slackOf weight l r j = 0) (fun j => l.ownerOf j ≠ none) (· < root)
      l.owner col := by
  have hne : ∀ j r, l.ownerOf j = some r → j ≠ col := by
    rintro j r hj rfl
    rw [h.free] at hj
    cases hj
  constructor
  · obtain ⟨e, he, rfl⟩ := List.mem_map.mp h.col_mem
    exact h.fits.owner_size ▸ h.col_lt e he
  · exact fun j r _ hj => h.fits.tight j r hj
  · exact fun j k r _ _ hj hk => h.fits.owner_inj j k r hj hk
  · intro r
    rw [← h.fits.owned_iff r]
    exact ⟨fun ⟨j, _, hj⟩ => ⟨j, hj⟩, fun ⟨j, hj⟩ => ⟨j, hne j r hj, hj⟩⟩
  · exact fun j _ hj => hj

/-- The flip at the end of a search matches the root and keeps every column matched that was. -/
theorem Ended.flip_ready {l : Labeling} {root col : Nat} {reached : List Reached}
    (h : Ended weight n m root l reached col) :
    ({ l with owner := flip l.owner root (pathTo col reached) } : Labeling).Ready weight n m
      (root + 1) ∧
    ∀ j, l.ownerOf j ≠ none → (flip l.owner root (pathTo col reached)).getD j none ≠ none := by
  obtain ⟨path, hpath, hsub, htight⟩ := h.traced.path h.col_mem
  have hnodup : (col :: path).Nodup := h.nodup.sublist hsub
  have hlt : ∀ c ∈ path, c < l.owner.size := by
    intro c hc
    obtain ⟨e, he, rfl⟩ := List.mem_map.mp (hsub.subset (List.mem_cons_of_mem _ hc))
    exact h.fits.owner_size ▸ h.col_lt e he
  have hhanded := flip_handed h.vacant (Nat.lt_irrefl root) hnodup hlt htight
  rw [hpath]
  refine ⟨⟨?_, fun r hr => h.row_zero r hr⟩, hhanded.matched⟩
  constructor
  · exact h.fits.rows_size
  · exact h.fits.cols_size
  · rw [size_flip]
    exact h.fits.owner_size
  · intro r hr j hj
    rcases Nat.lt_succ_iff_lt_or_eq.mp hr with hlt | rfl
    · exact h.fits.slack_nonneg r hlt j hj
    · exact h.root_fits j hj
  · exact hhanded.tight
  · exact h.fits.col_nonpos
  · intro j hfree
    refine h.fits.col_free j ?_
    by_contra hown
    exact hhanded.matched j hown hfree
  · intro r
    rw [Nat.lt_succ_iff_lt_or_eq]
    exact hhanded.rows_iff r
  · exact hhanded.inj

/-! ### Whole searches -/

/-- A search that is given a round for every column it has not reached ends with labels that fit the
root as well, and with every column matched that was. -/
theorem Holds.run_ready (h : Holds weight n m s) {rounds : Nat}
    (hrounds : m ≤ s.reached.length + rounds) :
    (s.run weight rounds).Ready weight n m (s.root + 1) ∧
      ∀ j, s.labels.ownerOf j ≠ none → (s.run weight rounds).ownerOf j ≠ none := by
  induction rounds generalizing s with
  | zero =>
    -- All columns would have been reached, but no more of them are owned than rows were inserted.
    have := h.reached_length_lt
    omega
  | succ rounds ih =>
    rcases h.round_cases with ⟨l, reached, col, hround, hended, hown⟩ |
      ⟨next, hround, hnext, hroot, hown, hlength⟩
    · obtain ⟨hready, hkept⟩ := hended.flip_ready
      simp only [run, hround]
      refine ⟨hready, fun j hj => hkept j ?_⟩
      rwa [Labeling.ownerOf, hown]
    · obtain ⟨hready, hkept⟩ := ih hnext (by omega)
      simp only [run, hround]
      refine ⟨hroot ▸ hready, fun j hj => hkept j ?_⟩
      rwa [Labeling.ownerOf, hown]

/-- The search for a row that has not been inserted starts with the invariant. -/
theorem start_holds {l : Labeling} {i : Nat} (h : l.Ready weight n m i) (hi : i < n)
    (hle : n ≤ m) : Holds weight n m (start l i) where
  fits := h.fits
  row_zero := fun r hr => h.row_zero r (Nat.le_of_lt hr)
  root_lt := hi
  le := hle
  root_fits := fun hne => absurd rfl hne
  columns := by simp [start, h.fits.owner_size, Function.comp_def]
  owned := by simp [start]
  here := rfl
  row := rfl
  offered := by
    intro c hc
    obtain ⟨col, -, rfl⟩ := List.mem_map.mp hc
    exact ⟨fun _ => rfl, fun d hd => (nomatch hd), fun d hd => (nomatch hd)⟩
  traced := trivial

end Search

namespace Labeling

variable {weight : Nat → Nat → Int} {n m i : Nat} {l : Labeling}

/-- An insertion leaves labels that fit one more row, and keeps every column matched that was. -/
theorem Ready.insertRow (h : l.Ready weight n m i) (hi : i < n) (hle : n ≤ m) :
    (l.insertRow weight i).Ready weight n m (i + 1) ∧
      ∀ j, l.ownerOf j ≠ none → (l.insertRow weight i).ownerOf j ≠ none := by
  refine (Search.start_holds h hi hle).run_ready ?_
  rw [h.fits.owner_size]
  exact Nat.le_add_left _ _

theorem afterRows_succ (weight : Nat → Nat → Int) (n m k : Nat) :
    afterRows weight n m (k + 1) = (afterRows weight n m k).insertRow weight k := by
  rw [afterRows, List.range_succ, List.foldl_append]
  rfl

/-- After the first `k` rows the labels fit them. -/
theorem afterRows_ready (weight : Nat → Nat → Int) {n m k : Nat} (hk : k ≤ n) (hle : n ≤ m) :
    (afterRows weight n m k).Ready weight n m k := by
  induction k with
  | zero => exact start_ready weight n m
  | succ k ih =>
    rw [afterRows_succ]
    exact ((ih (by omega)).insertRow (by omega) hle).1

/-- A column that has been matched stays so. -/
theorem ownerOf_afterRows (weight : Nat → Nat → Int) {n m k i j : Nat} (hki : k ≤ i) (hi : i ≤ n)
    (hle : n ≤ m) (hj : (afterRows weight n m k).ownerOf j ≠ none) :
    (afterRows weight n m i).ownerOf j ≠ none := by
  induction hki with
  | refl => exact hj
  | @step i _ ih =>
    have hready := afterRows_ready weight (show i ≤ n by omega) hle
    rw [afterRows_succ]
    exact (hready.insertRow hi hle).2 j (ih (by omega))

/-! ### The dual solution -/

/-- The labels are a dual solution for the first `i` of `n` rows and all of `m` columns,
complementary to the owners: the labels of a cell add up to its weight at most, and to its weight
where the row owns the column; a column label is at most zero, and zero for a free column. -/
structure Dual (weight : Nat → Nat → Int) (n m i : Nat) (l : Labeling) : Prop where
  sizes : l.rowLabel.size = n ∧ l.colLabel.size = m ∧ l.owner.size = m
  le_weight : ∀ r < i, ∀ j < m, l.rowLabel.getD r 0 + l.colLabel.getD j 0 ≤ weight r j
  eq_weight : ∀ r < i, ∀ j < m, l.ownerOf j = some r →
    l.rowLabel.getD r 0 + l.colLabel.getD j 0 = weight r j
  col_nonpos : ∀ j < m, l.colLabel.getD j 0 ≤ 0
  col_free : ∀ j < m, l.ownerOf j = none → l.colLabel.getD j 0 = 0
  row_once : ∀ r < i, ∃! j, j < m ∧ l.ownerOf j = some r
  row_zero : ∀ r, i ≤ r → r < n → l.rowLabel.getD r 0 = 0

theorem Ready.dual (h : l.Ready weight n m i) : l.Dual weight n m i where
  sizes := ⟨h.fits.rows_size, h.fits.cols_size, h.fits.owner_size⟩
  le_weight := fun _ hr _ hj => h.fits.le_weight hr hj
  eq_weight := fun _ _ _ _ hown => h.fits.eq_weight hown
  col_nonpos := fun j _ => h.fits.col_nonpos j
  col_free := fun j _ => h.fits.col_free j
  row_once := by
    intro r hr
    obtain ⟨j, hj⟩ := (h.fits.owned_iff r).mpr hr
    refine ⟨j, ⟨(h.fits.lt_of_owned hj).2, hj⟩, ?_⟩
    rintro k ⟨-, hk⟩
    exact h.fits.owner_inj k j r hk hj
  row_zero := fun r hr _ => h.row_zero r hr

/-- After `i` rows the labels are a dual solution for them, and every column that was matched after
fewer rows still is. -/
theorem afterRows_dual (weight : Nat → Nat → Int) {n m i : Nat} (hi : i ≤ n) (hle : n ≤ m) :
    (afterRows weight n m i).Dual weight n m i ∧
      ∀ k ≤ i, ∀ j < m, (afterRows weight n m k).ownerOf j ≠ none →
        (afterRows weight n m i).ownerOf j ≠ none :=
  ⟨(afterRows_ready weight hi hle).dual, fun _ hk _ _ => ownerOf_afterRows weight hk hi hle⟩

theorem afterRows_dual_two_of_three :
    let cells : List (List Int) := [[7, -2, 4, 1], [1, -9, 1, 2], [0, -5, 2147483647, -3]]
    let weight := fun r j => (cells.getD r []).getD j 0
    (2 ≤ 3 ∧ 3 ≤ 4) ∧ (afterRows weight 3 4 2).Dual weight 3 4 2 ∧
      ∀ k ≤ 2, ∀ j < 4, (afterRows weight 3 4 k).ownerOf j ≠ none →
        (afterRows weight 3 4 2).ownerOf j ≠ none :=
  ⟨by decide, afterRows_dual _ (by decide) (by decide)⟩

end Labeling

end PinRing.Assignment
