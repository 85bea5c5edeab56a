import PinRing.Proofs.Assignment.Insertion

/-! How many rounds an insertion takes, and the way back from the column at which it ends.  No round
is stuck: a column is left, and every column left has been offered a slack, so the least one is a
number.  The search for row `i` ends within `i + 1` rounds, since the columns that it reaches before
are owned by as many rows inserted earlier.  From the free column the back pointers lead to the root
over columns of this search, none twice. -/

namespace PinRing.Assignment.Search

variable {weight : Nat → Nat → Int} {n m k : Nat} {s t : Search}

/-- `k` rounds, each reaching one more row, lead from `s` to another search. -/
inductive Rounds (weight : Nat → Nat → Int) (s : Search) : Nat → Search → Prop
  | none : Rounds weight s 0 s
  | more {k : Nat} {t next : Search} (before : Rounds weight s k t)
      (round : t.round weight = .reach next) : Rounds weight s (k + 1) next

/-- A round picks a column that has not been reached.  Every such column has a slack by then, and
the labels move by the least of them. -/
structure Picks (weight : Nat → Nat → Int) (s : Search) (best : Candidate) (delta : Int) :
    Prop where
  col_mem : best.col ∈ s.frontier.map (·.col)
  not_reached : best.col ∉ s.reached.map (·.col)
  via_mem : ∀ back, best.via = some back → back ∈ s.reached.map (·.col)
  least : ∀ c ∈ s.frontier, ∃ d, (relax weight s c).slack = some d ∧ delta ≤ d
  round :
    s.round weight = .found (s.moveLabels delta) (⟨best.col, best.via⟩ :: s.reached) best.col ∨
      ∃ next, s.round weight = .reach next ∧ next.labels = s.moveLabels delta ∧
        next.reached = ⟨best.col, best.via⟩ :: s.reached

/-- Following the back pointers `way` from a column leads over the columns of a path to the root. -/
inductive WayBack (way : Nat → Option Nat) : Nat → List Nat → Prop
  | root {col : Nat} (last : way col = none) : WayBack way col [col]
  | back {col prev : Nat} {path : List Nat} (step : way col = some prev)
      (rest : WayBack way prev path) : WayBack way col (col :: path)

/-- The search ends in the round after `k` others, at the free column `col`, and a bound that allows
for more rounds makes no difference.  The path that is flipped is the way back from `col` to the
root, whatever the pointers of columns that the search has not reached, and holds no column
twice. -/
structure Ends (weight : Nat → Nat → Int) (s : Search) (k : Nat) (l : Labeling)
    (reached : List Reached) (col : Nat) : Prop where
  rounds : ∃ t, Rounds weight s k t ∧ t.round weight = .found l reached col
  free : l.ownerOf col = none
  reached_nodup : (reached.map (·.col)).Nodup
  path_nodup : (pathTo col reached).Nodup
  way_back : ∀ way : Nat → Option Nat, (∀ e ∈ reached, way e.col = e.via) →
    WayBack way col (pathTo col reached)
  run : ∀ bound, k < bound →
    s.run weight bound = { l with owner := flip l.owner s.root (pathTo col reached) }

/-! ### Rounds -/

theorem Holds.picks (h : Holds weight n m s) : ∃ best delta, Picks weight s best delta := by
  obtain ⟨best, delta, htight, hbest⟩ := h.exists_best
  have hround := round_eq htight
  refine ⟨best, delta, ?_, h.best_not_reached hbest, hbest.joined.via_mem, fun c hc => ?_, ?_⟩
  · obtain ⟨c, hc, hcol⟩ := hbest.col_mem
    exact hcol ▸ List.mem_map_of_mem hc
  · obtain ⟨d, hd⟩ := h.relax_settled hc
    exact ⟨d, hd.slack, (tightest?_some htight).2.2 _ (List.mem_map_of_mem hc) d hd.slack⟩
  · cases hown : s.labels.ownerOf best.col with
    | none =>
      rw [hown] at hround
      exact .inl hround
    | some row =>
      rw [hown] at hround
      exact .inr ⟨_, hround, rfl, rfl⟩

/-- Rounds keep the invariant, and each of them reaches one more column. -/
theorem Rounds.holds (h : Rounds weight s k t) (hs : Holds weight n m s) :
    Holds weight n m t ∧ t.root = s.root ∧ t.reached.length = s.reached.length + k := by
  induction h with
  | none => exact ⟨hs, rfl, rfl⟩
  | @more k t next _ hround ih =>
    obtain ⟨ht, hroot, hlength⟩ := ih
    rcases ht.round_cases with ⟨l, reached, col, hfound, -⟩ |
      ⟨other, hreach, hother, hroot', -, hlength'⟩
    · rw [hround] at hfound
      cases hfound
    · rw [hround] at hreach
      cases hreach
      exact ⟨hother, hroot'.trans hroot, by omega⟩

/-- The columns reached are owned by different rows inserted before, which bounds their number. -/
theorem Rounds.le_root (h : Rounds weight s k t) (hs : Holds weight n m s) : k ≤ s.root := by
  obtain ⟨ht, hroot, hlength⟩ := h.holds hs
  have := ht.reached_length_le
  omega

/-- The bound on the rounds counts down by those made. -/
theorem Rounds.run_eq (h : Rounds weight s k t) (bound : Nat) :
    s.run weight (k + bound) = t.run weight bound := by
  induction h generalizing bound with
  | none => rw [Nat.zero_add]
  | more _ hround ih =>
    rw [Nat.add_right_comm, Nat.add_assoc, ih]
    simp only [run, hround]

/-- A search ends within `k` rounds, or reaches one more column in each of them. -/
theorem Holds.ends_or_goes_on (hs : Holds weight n m s) (k : Nat) :
    (∃ j < k, ∃ t l reached col, Rounds weight s j t ∧ t.round weight = .found l reached col ∧
      Ended weight n m t.root l reached col) ∨ ∃ t, Rounds weight s k t := by
  induction k with
  | zero => exact .inr ⟨s, .none⟩
  | succ k ih =>
    rcases ih with ⟨j, hj, hended⟩ | ⟨t, ht⟩
    · exact .inl ⟨j, Nat.lt_succ_of_lt hj, hended⟩
    · rcases (ht.holds hs).1.round_cases with ⟨l, reached, col, hfound, hended, -⟩ |
        ⟨next, hreach, -⟩
      · exact .inl ⟨k, Nat.lt_succ_self k, t, l, reached, col, ht, hfound, hended⟩
      · exact .inr ⟨next, .more ht hreach⟩

/-! ### The end of a search -/

/-- Only the pointers of columns reached decide the way back from one of them. -/
theorem Traced.wayBack {l : Labeling} {root col : Nat} {reached : List Reached}
    {way : Nat → Option Nat} (h : Traced weight l root reached)
    (hway : ∀ e ∈ reached, way e.col = e.via) (hcol : col ∈ reached.map (·.col)) :
    WayBack way col (pathTo col reached) := by
  induction reached generalizing col with
  | nil => cases hcol
  | cons e rest ih =>
    obtain ⟨hjoined, htraced⟩ := h
    obtain ⟨hhead, hrest⟩ := List.forall_mem_cons.mp hway
    by_cases he : e.col = col
    · rw [he] at hhead
      rw [pathTo, if_pos he]
      cases hvia : e.via with
      | none => exact .root (hhead.trans hvia)
      | some back =>
        -- a pointer was set from a column reached earlier, so the way goes on among the rest
        exact .back (hhead.trans hvia) (ih htraced hrest (hjoined.via_mem back hvia))
    · rw [pathTo, if_neg he]
      rcases List.mem_cons.mp hcol with heq | hmem
      · exact absurd heq.symm he
      · exact ih htraced hrest hmem

theorem Rounds.ends {l : Labeling} {reached : List Reached} {col : Nat}
    (h : Rounds weight s k t) (hs : Holds weight n m s)
    (hfound : t.round weight = .found l reached col)
    (hended : Ended weight n m t.root l reached col) : Ends weight s k l reached col where
  rounds := ⟨t, h, hfound⟩
  free := hended.free
  reached_nodup := hended.nodup
  path_nodup := by
    obtain ⟨path, hpath, hsub, -⟩ := hended.traced.path hended.col_mem
    rw [hpath]
    exact hended.nodup.sublist hsub
  way_back := fun _ hway => hended.traced.wayBack hway hended.col_mem
  run := by
    intro bound hlt
    obtain ⟨rest, rfl⟩ := Nat.exists_eq_add_of_lt hlt
    rw [Nat.add_assoc, h.run_eq]
    simp only [run, hfound, (h.holds hs).2.1]

theorem Holds.exists_ends (hs : Holds weight n m s) :
    ∃ k ≤ s.root, ∃ l reached col, Ends weight s k l reached col := by
  rcases hs.ends_or_goes_on (s.root + 1) with
    ⟨k, hk, t, l, reached, col, ht, hfound, hended⟩ | ⟨t, ht⟩
  · exact ⟨k, Nat.le_of_lt_succ hk, l, reached, col, ht.ends hs hfound hended⟩
  · exact absurd (ht.le_root hs) (Nat.not_succ_le_self _)

/-- The search for row `i` is never stuck: each of its rounds picks a column by a number.  It ends
within `i + 1` rounds, and what the insertion leaves is what it ends with. -/
theorem insertRow_ends (weight : Nat → Nat → Int) {n m i : Nat} (hi : i < n) (hle : n ≤ m) :
    let s := start (Labeling.afterRows weight n m i) i
    (∀ k t, Rounds weight s k t →
      k ≤ i ∧ ∃ best delta, best.col < m ∧ Picks weight t best delta) ∧
    ∃ k ≤ i, ∃ l reached col, Ends weight s k l reached col ∧
      Labeling.afterRows weight n m (i + 1) =
        { l with owner := flip l.owner i (pathTo col reached) } := by
  intro s
  have hready := Labeling.afterRows_ready weight (Nat.le_of_lt hi) hle
  have hs : Holds weight n m s := start_holds hready hi hle
  refine ⟨fun k t ht => ⟨ht.le_root hs, ?_⟩, ?_⟩
  · have hholds := (ht.holds hs).1
    obtain ⟨best, delta, hpicks⟩ := hholds.picks
    obtain ⟨c, hc, hcol⟩ := List.mem_map.mp hpicks.col_mem
    exact ⟨best, delta, hcol ▸ hholds.frontier_lt hc, hpicks⟩
  · obtain ⟨k, hk, l, reached, col, hends⟩ := hs.exists_ends
    refine ⟨k, hk, l, reached, col, hends, ?_⟩
    rw [Labeling.afterRows_succ, Labeling.insertRow, hready.fits.owner_size]
    -- a round for every column is more than enough
    have hkm : k < m := Nat.lt_of_le_of_lt hk (Nat.lt_of_lt_of_le hi hle)
    exact hends.run m hkm

theorem insertRow_ends_third_of_ties :
    let weight : Nat → Nat → Int := fun r _ => 5 - r
    let s := start (Labeling.afterRows weight 3 4 2) 2
    (2 < 3 ∧ 3 ≤ 4) ∧
    (∀ k t, Rounds weight s k t →
      k ≤ 2 ∧ ∃ best delta, best.col < 4 ∧ Picks weight t best delta) ∧
    ∃ k ≤ 2, ∃ l reached col, Ends weight s k l reached col ∧
      Labeling.afterRows weight 3 4 3 =
        { l with owner := flip l.owner 2 (pathTo col reached) } :=
  ⟨by decide, insertRow_ends _ (by decide) (by decide)⟩

end PinRing.Assignment.Search
