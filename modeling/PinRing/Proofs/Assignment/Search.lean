import Mathlib.Data.List.Nodup
import Mathlib.Data.List.Perm.Basic
import Mathlib.Data.List.Perm.Subperm
import Mathlib.Tactic.Common
import PinRing.Proofs.Assignment.Labeling

/-! The search that inserts a row, round by round.  `Search.Holds` is what holds before every round;
a round keeps it or ends at a free column, and the flip along the path to that column leaves labels
that fit one more row. -/

namespace PinRing.Assignment

/-- The row from which a column was reached: the root, or the owner of an earlier column. -/
def Labeling.rowAt (l : Labeling) (root : Nat) : Option Nat → Option Nat
  | none => some root
  | some col => l.ownerOf col

namespace Search

variable {weight : Nat → Nat → Int} {n m : Nat} {s : Search}

/-- A column is seen from one of the columns reached, or from the root, at some slack. -/
structure Joined (weight : Nat → Nat → Int) (l : Labeling) (root : Nat) (reached : List Reached)
    (via : Option Nat) (col : Nat) (slack : Int) : Prop where
  via_mem : ∀ c, via = some c → c ∈ reached.map (·.col)
  row : ∃ r, l.rowAt root via = some r ∧ slackOf weight l r col = slack

/-- Every column reached is tight with the row from which it was reached, and that row was reached
before it. -/
def Traced (weight : Nat → Nat → Int) (l : Labeling) (root : Nat) : List Reached → Prop
  | [] => True
  | e :: rest => Joined weight l root rest e.via e.col 0 ∧ Traced weight l root rest

/-- The slack of a candidate before it has seen the row reached last. -/
structure Offered (weight : Nat → Nat → Int) (s : Search) (c : Candidate) : Prop where
  none_first : c.slack = none → s.reached = []
  joined : ∀ d, c.slack = some d → Joined weight s.labels s.root s.reached c.via c.col d
  bound : ∀ d, c.slack = some d → ∀ r ∈ s.rowsReached, r ≠ s.row →
    d ≤ slackOf weight s.labels r c.col

/-- The slack of a candidate once it has seen all rows reached: the least one. -/
structure Settled (weight : Nat → Nat → Int) (s : Search) (c : Candidate) (d : Int) : Prop where
  slack : c.slack = some d
  joined : Joined weight s.labels s.root s.reached c.via c.col d
  bound : ∀ r ∈ s.rowsReached, d ≤ slackOf weight s.labels r c.col

/-- The state of a search before a round. -/
structure Holds (weight : Nat → Nat → Int) (n m : Nat) (s : Search) : Prop where
  fits : s.labels.Fits weight n m s.root
  row_zero : ∀ r, s.root < r → s.labels.rowLabel.getD r 0 = 0
  root_lt : s.root < n
  le : n ≤ m
  root_fits : s.reached ≠ [] → ∀ j < m, 0 ≤ slackOf weight s.labels s.root j
  columns : (s.reached.map (·.col) ++ s.frontier.map (·.col)).Perm (List.range m)
  owned : ∀ e ∈ s.reached, ∃ r, s.labels.ownerOf e.col = some r
  here : s.here = s.reached.head?.map (·.col)
  row : s.labels.rowAt s.root s.here = some s.row
  offered : ∀ c ∈ s.frontier, Offered weight s c
  traced : Traced weight s.labels s.root s.reached

/-- The state at the end of a search, at a column without a row. -/
structure Ended (weight : Nat → Nat → Int) (n m root : Nat) (l : Labeling)
    (reached : List Reached) (col : Nat) : Prop where
  fits : l.Fits weight n m root
  row_zero : ∀ r, root < r → l.rowLabel.getD r 0 = 0
  root_fits : ∀ j < m, 0 ≤ slackOf weight l root j
  nodup : (reached.map (·.col)).Nodup
  col_lt : ∀ e ∈ reached, e.col < m
  col_mem : col ∈ reached.map (·.col)
  traced : Traced weight l root reached
  free : l.ownerOf col = none

/-! ### The rows and columns reached -/

theorem mem_rowsReached {r : Nat} :
    r ∈ s.rowsReached ↔ r = s.root ∨ ∃ e ∈ s.reached, s.labels.ownerOf e.col = some r := by
  simp [rowsReached, Labeling.ownerOf]

namespace Holds

variable (h : Holds weight n m s)

include h

theorem reached_nodup : (s.reached.map (·.col)).Nodup :=
  (List.nodup_append.mp (h.columns.nodup_iff.mpr List.nodup_range)).1

theorem frontier_nodup : (s.frontier.map (·.col)).Nodup :=
  (List.nodup_append.mp (h.columns.nodup_iff.mpr List.nodup_range)).2.1

theorem frontier_not_reached {c : Candidate} (hc : c ∈ s.frontier) :
    c.col ∉ s.reached.map (·.col) := fun hmem =>
  (List.nodup_append.mp (h.columns.nodup_iff.mpr List.nodup_range)).2.2 _ hmem _
    (List.mem_map_of_mem hc) rfl

theorem reached_lt {e : Reached} (he : e ∈ s.reached) : e.col < m :=
  List.mem_range.mp (h.columns.mem_iff.mp (List.mem_append_left _ (List.mem_map_of_mem he)))

theorem frontier_lt {c : Candidate} (hc : c ∈ s.frontier) : c.col < m :=
  List.mem_range.mp (h.columns.mem_iff.mp (List.mem_append_right _ (List.mem_map_of_mem hc)))

theorem reached_or_frontier {j : Nat} (hj : j < m) :
    j ∈ s.reached.map (·.col) ∨ ∃ c ∈ s.frontier, c.col = j := by
  rcases List.mem_append.mp (h.columns.mem_iff.mpr (List.mem_range.mpr hj)) with hr | hf
  · exact .inl hr
  · exact .inr (List.mem_map.mp hf)

/-- The owners of the columns reached. -/
theorem owners_nodup :
    (s.reached.filterMap fun e => s.labels.owner.getD e.col none).Nodup := by
  have hmap : (s.reached.filterMap fun e => s.labels.owner.getD e.col none) =
      (s.reached.map (·.col)).filterMap s.labels.ownerOf := by
    rw [List.filterMap_map]
    rfl
  rw [hmap]
  refine h.reached_nodup.filterMap fun a b r ha hb => ?_
  exact h.fits.owner_inj a b r (Option.mem_def.mp ha) (Option.mem_def.mp hb)

theorem rowsReached_nodup : s.rowsReached.Nodup := by
  refine List.nodup_cons.mpr ⟨fun hmem => ?_, h.owners_nodup⟩
  obtain ⟨e, -, hown⟩ := List.mem_filterMap.mp hmem
  exact absurd (h.fits.lt_of_owned hown).1 (Nat.lt_irrefl _)

theorem rowsReached_le {r : Nat} (hr : r ∈ s.rowsReached) : r ≤ s.root := by
  rcases mem_rowsReached.mp hr with rfl | ⟨e, -, hown⟩
  · exact Nat.le_refl _
  · exact Nat.le_of_lt (h.fits.lt_of_owned hown).1

/-- No more columns are reached than rows were inserted before, so that one is left. -/
theorem reached_length_le : s.reached.length ≤ s.root := by
  have hlen : (s.reached.filterMap fun e => s.labels.owner.getD e.col none).length =
      s.reached.length := by
    refine List.filterMap_length_eq_length.mpr fun e he => ?_
    obtain ⟨r, hr⟩ := h.owned e he
    exact Option.isSome_iff_exists.mpr ⟨r, hr⟩
  have hsub : (s.reached.filterMap fun e => s.labels.owner.getD e.col none) ⊆
      List.range s.root := by
    intro r hr
    obtain ⟨e, -, hown⟩ := List.mem_filterMap.mp hr
    exact List.mem_range.mpr (h.fits.lt_of_owned hown).1
  have := (h.owners_nodup.subperm hsub).length_le
  rw [hlen, List.length_range] at this
  exact this

theorem reached_length_lt : s.reached.length < m :=
  Nat.lt_of_le_of_lt h.reached_length_le (Nat.lt_of_lt_of_le h.root_lt h.le)

theorem frontier_ne_nil : s.frontier ≠ [] := by
  intro hnil
  have hlen := h.columns.length_eq
  have := h.reached_length_lt
  simp only [hnil, List.map_nil, List.append_nil, List.length_map, List.length_range] at hlen
  omega

/-- The row reached last is among the rows reached. -/
theorem row_mem : s.row ∈ s.rowsReached := by
  have hrow := h.row
  rw [h.here] at hrow
  cases hreached : s.reached with
  | nil =>
    rw [hreached] at hrow
    exact mem_rowsReached.mpr (.inl (Option.some.inj hrow).symm)
  | cons e rest =>
    rw [hreached] at hrow
    exact mem_rowsReached.mpr (.inr ⟨e, by simp [hreached], hrow⟩)

end Holds

/-- The row from which a column is seen is among the rows reached. -/
theorem Joined.row_mem {via : Option Nat} {col : Nat} {d : Int}
    (h : Joined weight s.labels s.root s.reached via col d) :
    ∃ r ∈ s.rowsReached,
      s.labels.rowAt s.root via = some r ∧ slackOf weight s.labels r col = d := by
  obtain ⟨r, hr, hd⟩ := h.row
  refine ⟨r, mem_rowsReached.mpr ?_, hr, hd⟩
  cases via with
  | none => exact .inl (Option.some.inj hr).symm
  | some c =>
    obtain ⟨e, he, rfl⟩ := List.mem_map.mp (h.via_mem c rfl)
    exact .inr ⟨e, he, hr⟩

/-! ### The least slack -/

@[simp] theorem col_relax (s : Search) (c : Candidate) : (relax weight s c).col = c.col := by
  simp only [relax]
  split <;> rfl

/-- A candidate that has been offered the row reached last has seen all rows reached. -/
theorem Holds.relax_settled (h : Holds weight n m s) {c : Candidate} (hc : c ∈ s.frontier) :
    ∃ d, Settled weight s (relax weight s c) d := by
  have hoffered := h.offered c hc
  have hnew : Joined weight s.labels s.root s.reached s.here c.col
      (slackOf weight s.labels s.row c.col) := by
    refine ⟨fun k hk => ?_, s.row, h.row, rfl⟩
    rw [h.here] at hk
    obtain ⟨e, he, rfl⟩ := Option.map_eq_some_iff.mp hk
    exact List.mem_map_of_mem (List.mem_of_head? he)
  unfold relax
  by_cases hlower : lower (slackOf weight s.labels s.row c.col) c.slack = true
  · simp only [hlower, if_true]
    refine ⟨_, rfl, hnew, fun r hr => ?_⟩
    by_cases hrow : r = s.row
    · exact Int.le_of_eq (by rw [hrow])
    · cases hslack : c.slack with
      | none =>
        -- Only before the first round is there no slack, and then the root is the only row.
        have hnil := hoffered.none_first hslack
        have hroot := h.row
        rw [h.here, hnil] at hroot
        rcases mem_rowsReached.mp hr with rfl | ⟨e, he, -⟩
        · exact absurd (Option.some.inj hroot) hrow
        · rw [hnil] at he
          cases he
      | some b =>
        rw [hslack] at hlower
        have hlt : slackOf weight s.labels s.row c.col < b := of_decide_eq_true hlower
        exact Int.le_trans (Int.le_of_lt hlt) (hoffered.bound b hslack r hr hrow)
  · simp only [hlower, Bool.false_eq_true, if_false]
    cases hslack : c.slack with
    | none => rw [hslack] at hlower; exact absurd rfl hlower
    | some b =>
      rw [hslack] at hlower
      have hle : b ≤ slackOf weight s.labels s.row c.col :=
        Int.not_lt.mp fun hlt => hlower (decide_eq_true hlt)
      refine ⟨b, hslack, hoffered.joined b hslack, fun r hr => ?_⟩
      by_cases hrow : r = s.row
      · rwa [hrow]
      · exact hoffered.bound b hslack r hr hrow

/-- The tightest candidate has the least slack. -/
theorem tightest?_some {cs : List Candidate} {best : Candidate} {d : Int}
    (h : tightest? cs = some (best, d)) :
    best ∈ cs ∧ best.slack = some d ∧ ∀ c ∈ cs, ∀ b, c.slack = some b → d ≤ b := by
  induction cs generalizing best d with
  | nil => cases h
  | cons c rest ih =>
    unfold tightest? at h
    cases hslack : c.slack with
    | none =>
      rw [hslack] at h
      obtain ⟨hmem, hbest, hmin⟩ := ih h
      refine ⟨List.mem_cons_of_mem _ hmem, hbest, fun c' hc' b hb => ?_⟩
      rcases List.mem_cons.mp hc' with rfl | hc'
      · rw [hslack] at hb
        cases hb
      · exact hmin c' hc' b hb
    | some a =>
      rw [hslack] at h
      cases hrest : tightest? rest with
      | none =>
        rw [hrest] at h
        obtain ⟨rfl, rfl⟩ := Prod.mk.inj (Option.some.inj h)
        refine ⟨List.mem_cons_self, hslack, fun c' hc' b hb => ?_⟩
        rcases List.mem_cons.mp hc' with rfl | hc'
        · exact Int.le_of_eq (Option.some.inj (hslack.symm.trans hb))
        · exact absurd (none_of_tightest? hrest c' hc') (by simp [hb])
      | some found =>
        obtain ⟨e, b⟩ := found
        rw [hrest] at h
        obtain ⟨hmem, hbest, hmin⟩ := ih hrest
        have hall : ∀ c' ∈ c :: rest, ∀ b', c'.slack = some b' → a = b' ∨ b ≤ b' := by
          intro c' hc' b' hb'
          rcases List.mem_cons.mp hc' with rfl | hc'
          · exact .inl (Option.some.inj (hslack.symm.trans hb'))
          · exact .inr (hmin c' hc' b' hb')
        by_cases hlt : b < a
        · simp only [hlt, if_true, Option.some.injEq, Prod.mk.injEq] at h
          obtain ⟨rfl, rfl⟩ := h
          refine ⟨List.mem_cons_of_mem _ hmem, hbest, fun c' hc' b' hb' => ?_⟩
          rcases hall c' hc' b' hb' with heq | hle
          · omega
          · exact hle
        · simp only [hlt, if_false, Option.some.injEq, Prod.mk.injEq] at h
          obtain ⟨rfl, rfl⟩ := h
          refine ⟨List.mem_cons_self, hslack, fun c' hc' b' hb' => ?_⟩
          rcases hall c' hc' b' hb' with heq | hle
          · exact Int.le_of_eq heq
          · omega
where
  /-- Without a tightest candidate none has a slack. -/
  none_of_tightest? {cs : List Candidate} (h : tightest? cs = none) :
      ∀ c ∈ cs, c.slack = none := by
    induction cs with
    | nil => simp
    | cons c rest ih =>
      unfold tightest? at h
      cases hslack : c.slack with
      | none =>
        rw [hslack] at h
        intro c' hc'
        rcases List.mem_cons.mp hc' with rfl | hc'
        · exact hslack
        · exact ih h c' hc'
      | some a =>
        rw [hslack] at h
        cases hrest : tightest? rest with
        | none => rw [hrest] at h; cases h
        | some found =>
          rw [hrest] at h
          simp only at h
          split at h <;> cases h

/-! ### Moving the labels -/

theorem moveLabels_ownerOf (s : Search) (delta : Int) (col : Nat) :
    (s.moveLabels delta).ownerOf col = s.labels.ownerOf col := rfl

theorem moveLabels_rowAt (s : Search) (delta : Int) (root : Nat) (via : Option Nat) :
    (s.moveLabels delta).rowAt root via = s.labels.rowAt root via := by
  cases via <;> rfl

namespace Holds

variable (h : Holds weight n m s) (delta : Int)

include h

theorem rowLabel_move {r : Nat} (hr : r < n) :
    (s.moveLabels delta).rowLabel.getD r 0 =
      s.labels.rowLabel.getD r 0 + if r ∈ s.rowsReached then delta else 0 := by
  rw [moveLabels, getD_foldl_modify _ _ _ h.rowsReached_nodup, h.fits.rows_size]
  split <;> split <;> simp_all

theorem colLabel_move (j : Nat) :
    (s.moveLabels delta).colLabel.getD j 0 =
      s.labels.colLabel.getD j 0 - if j ∈ s.reached.map (·.col) then delta else 0 := by
  have hfold : (s.moveLabels delta).colLabel =
      (s.reached.map (·.col)).foldl (fun l i => l.modify i (· - delta)) s.labels.colLabel := by
    rw [List.foldl_map]
    rfl
  rw [hfold, getD_foldl_modify _ _ _ h.reached_nodup, h.fits.cols_size]
  by_cases hmem : j ∈ s.reached.map (·.col)
  · obtain ⟨e, he, rfl⟩ := List.mem_map.mp hmem
    rw [if_pos ⟨hmem, h.reached_lt he⟩, if_pos hmem]
  · rw [if_neg fun hboth => hmem hboth.1, if_neg hmem, Int.sub_zero]

/-- A move takes its step off the slack of the rows reached and gives it to the columns reached. -/
theorem slackOf_move {r : Nat} (hr : r < n) (j : Nat) :
    slackOf weight (s.moveLabels delta) r j =
      slackOf weight s.labels r j - (if r ∈ s.rowsReached then delta else 0) +
        (if j ∈ s.reached.map (·.col) then delta else 0) := by
  simp only [slackOf, h.rowLabel_move delta hr, h.colLabel_move]
  omega

theorem rowsReached_lt {r : Nat} (hr : r ∈ s.rowsReached) : r < n :=
  Nat.lt_of_le_of_lt (h.rowsReached_le hr) h.root_lt

theorem joined_move {rest : List Reached} {via : Option Nat} {col : Nat} {d : Int}
    (hj : Joined weight s.labels s.root rest via col d) (hsub : rest ⊆ s.reached) :
    Joined weight (s.moveLabels delta) s.root rest via col
      (d - delta + if col ∈ s.reached.map (·.col) then delta else 0) := by
  have hwide : Joined weight s.labels s.root s.reached via col d :=
    ⟨fun c hc => List.map_subset _ hsub (hj.via_mem c hc), hj.row⟩
  obtain ⟨r, hmem, hr, hd⟩ := hwide.row_mem
  refine ⟨hj.via_mem, r, (moveLabels_rowAt s delta s.root via).trans hr, ?_⟩
  rw [h.slackOf_move delta (h.rowsReached_lt hmem), if_pos hmem, hd]

theorem traced_move {rest : List Reached} (ht : Traced weight s.labels s.root rest)
    (hsub : rest ⊆ s.reached) : Traced weight (s.moveLabels delta) s.root rest := by
  induction rest with
  | nil => trivial
  | cons e rest ih =>
    have hrest : rest ⊆ s.reached := fun x hx => hsub (List.mem_cons_of_mem _ hx)
    refine ⟨?_, ih ht.2 hrest⟩
    have hmem : e.col ∈ s.reached.map (·.col) := List.mem_map_of_mem (hsub List.mem_cons_self)
    have := h.joined_move delta ht.1 hrest
    rwa [if_pos hmem, show (0 : Int) - delta + delta = 0 by omega] at this

theorem move_row_zero {r : Nat} (hr : s.root < r) :
    (s.moveLabels delta).rowLabel.getD r 0 = 0 := by
  have hout : r ∉ s.rowsReached := fun hmem => by
    have := h.rowsReached_le hmem
    omega
  rw [moveLabels, getD_foldl_modify _ _ _ h.rowsReached_nodup, if_neg fun hboth => hout hboth.1]
  exact h.row_zero r hr

variable {delta} (hmin : ∀ r ∈ s.rowsReached, ∀ c ∈ s.frontier,
  delta ≤ slackOf weight s.labels r c.col)

include hmin

/-- The root fits every column once the labels have moved. -/
theorem move_root_fits {j : Nat} (hj : j < m) :
    0 ≤ slackOf weight (s.moveLabels delta) s.root j := by
  have hroot : s.root ∈ s.rowsReached := mem_rowsReached.mpr (.inl rfl)
  rw [h.slackOf_move delta h.root_lt, if_pos hroot]
  rcases h.reached_or_frontier hj with hreached | ⟨c, hc, rfl⟩
  · have := h.root_fits (fun hnil => by simp [hnil] at hreached) j hj
    rw [if_pos hreached]
    omega
  · have := hmin s.root hroot c hc
    rw [if_neg (h.frontier_not_reached hc)]
    omega

/-- A move by the least slack keeps the labels within the weights. -/
theorem move_fits (hpos : s.reached ≠ [] → 0 ≤ delta) :
    (s.moveLabels delta).Fits weight n m s.root := by
  have hstep : ∀ j, j ∈ s.reached.map (·.col) → 0 ≤ delta := fun j hj =>
    hpos fun hnil => by simp [hnil] at hj
  constructor
  · simp only [moveLabels, size_foldl_modify]
    exact h.fits.rows_size
  · have : (s.moveLabels delta).colLabel.size = s.labels.colLabel.size := by
      simp only [moveLabels]
      rw [← List.foldl_map (f := fun e : Reached => e.col)
        (g := fun (l : Array Int) i => l.modify i (· - delta)), size_foldl_modify]
    rw [this, h.fits.cols_size]
  · exact h.fits.owner_size
  · intro r hr j hj
    have hslack := h.fits.slack_nonneg r hr j hj
    rw [h.slackOf_move delta (Nat.lt_trans hr h.root_lt)]
    by_cases hrow : r ∈ s.rowsReached
    · rw [if_pos hrow]
      rcases h.reached_or_frontier hj with hreached | ⟨c, hc, rfl⟩
      · rw [if_pos hreached]
        omega
      · have := hmin r hrow c hc
        rw [if_neg (h.frontier_not_reached hc)]
        omega
    · rw [if_neg hrow]
      split
      · have := hstep j ‹_›
        omega
      · omega
  · intro j r hown
    rw [moveLabels_ownerOf] at hown
    have hlt := (h.fits.lt_of_owned hown).1
    rw [h.slackOf_move delta (Nat.lt_trans hlt h.root_lt), h.fits.tight j r hown]
    -- an owned column is reached exactly when its owner is
    have hiff : r ∈ s.rowsReached ↔ j ∈ s.reached.map (·.col) := by
      constructor
      · intro hmem
        rcases mem_rowsReached.mp hmem with rfl | ⟨e, he, hr⟩
        · exact absurd hlt (Nat.lt_irrefl _)
        · rw [h.fits.owner_inj j e.col r hown hr]
          exact List.mem_map_of_mem he
      · intro hmem
        obtain ⟨e, he, rfl⟩ := List.mem_map.mp hmem
        exact mem_rowsReached.mpr (.inr ⟨e, he, hown⟩)
    by_cases hmem : j ∈ s.reached.map (·.col)
    · rw [if_pos (hiff.mpr hmem), if_pos hmem]
      omega
    · rw [if_neg fun hr => hmem (hiff.mp hr), if_neg hmem]
      rfl
  · intro j
    have := h.fits.col_nonpos j
    rw [h.colLabel_move]
    split
    · have := hstep j ‹_›
      omega
    · omega
  · intro j hfree
    rw [moveLabels_ownerOf] at hfree
    have hout : j ∉ s.reached.map (·.col) := fun hmem => by
      obtain ⟨e, he, rfl⟩ := List.mem_map.mp hmem
      obtain ⟨r, hr⟩ := h.owned e he
      rw [hfree] at hr
      cases hr
    rw [h.colLabel_move, if_neg hout, Int.sub_zero]
    exact h.fits.col_free j hfree
  · exact h.fits.owned_iff
  · exact h.fits.owner_inj

end Holds

end Search

end PinRing.Assignment
