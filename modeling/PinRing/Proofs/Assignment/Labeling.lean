import Mathlib.Data.List.Nodup
import Mathlib.Tactic.Common
import PinRing.Assignment.Search

/-! What holds of labels and owners between two insertions, and what handing the columns of a path
over to other rows does to the owners. -/

namespace PinRing.Assignment

theorem getD_modify {α : Type} (a : Array α) (i j : Nat) (f : α → α) (d : α) :
    (a.modify i f).getD j d = if i = j ∧ j < a.size then f (a.getD j d) else a.getD j d := by
  by_cases hj : j < a.size
  · by_cases hi : i = j
    · simp [Array.getD_eq_getD_getElem?, Array.getElem_modify, hi, hj]
    · simp [Array.getD_eq_getD_getElem?, Array.getElem_modify, hi, hj]
  · simp [Array.getD_eq_getD_getElem?, hj]

theorem getD_setIfInBounds {α : Type} (a : Array α) (i j : Nat) (x d : α) :
    (a.setIfInBounds i x).getD j d = if i = j ∧ j < a.size then x else a.getD j d := by
  by_cases hi : i = j
  · subst hi
    by_cases hj : i < a.size
    · simp [Array.getD_eq_getD_getElem?, hj]
    · simp [Array.getD_eq_getD_getElem?, hj]
  · simp [Array.getD_eq_getD_getElem?, hi]

/-- Changing the entries at distinct indices changes each of them once. -/
theorem getD_foldl_modify {α : Type} (f : α → α) (d : α) (is : List Nat) (hnodup : is.Nodup)
    (a : Array α) (j : Nat) :
    (is.foldl (fun a i => a.modify i f) a).getD j d =
      if j ∈ is ∧ j < a.size then f (a.getD j d) else a.getD j d := by
  induction is generalizing a with
  | nil => simp
  | cons i is ih =>
    obtain ⟨hout, hrest⟩ := List.nodup_cons.mp hnodup
    rw [List.foldl_cons, ih hrest, getD_modify, Array.size_modify]
    by_cases hi : i = j
    · subst hi
      simp [hout]
    · simp [hi, Ne.symm hi]

theorem size_foldl_modify {α : Type} (f : α → α) (is : List Nat) (a : Array α) :
    (is.foldl (fun a i => a.modify i f) a).size = a.size := by
  induction is generalizing a with
  | nil => rfl
  | cons i is ih => rw [List.foldl_cons, ih, Array.size_modify]

namespace Labeling

/-- The row matched to a column. -/
def ownerOf (l : Labeling) (col : Nat) : Option Nat := l.owner.getD col none

/-- The labels fit the weights of the first `i` of `n` rows and all of `m` columns, and these rows
are the ones that are matched. -/
structure Fits (weight : Nat → Nat → Int) (n m i : Nat) (l : Labeling) : Prop where
  rows_size : l.rowLabel.size = n
  cols_size : l.colLabel.size = m
  owner_size : l.owner.size = m
  slack_nonneg : ∀ r < i, ∀ j < m, 0 ≤ Search.slackOf weight l r j
  tight : ∀ j r, l.ownerOf j = some r → Search.slackOf weight l r j = 0
  col_nonpos : ∀ j, l.colLabel.getD j 0 ≤ 0
  col_free : ∀ j, l.ownerOf j = none → l.colLabel.getD j 0 = 0
  owned_iff : ∀ r, (∃ j, l.ownerOf j = some r) ↔ r < i
  owner_inj : ∀ j k r, l.ownerOf j = some r → l.ownerOf k = some r → j = k

/-- The state between two insertions: the labels fit the rows inserted, and the labels of the other
rows are still zero. -/
structure Ready (weight : Nat → Nat → Int) (n m i : Nat) (l : Labeling) : Prop where
  fits : l.Fits weight n m i
  row_zero : ∀ r, i ≤ r → l.rowLabel.getD r 0 = 0

section Fits

variable {weight : Nat → Nat → Int} {n m i : Nat} {l : Labeling}

theorem Fits.lt_of_owned (h : l.Fits weight n m i) {j r : Nat} (hj : l.ownerOf j = some r) :
    r < i ∧ j < m := by
  refine ⟨(h.owned_iff r).mp ⟨j, hj⟩, ?_⟩
  by_contra hout
  have : l.ownerOf j = none := by
    simp [ownerOf, Array.getD_eq_getD_getElem?, h.owner_size ▸ hout]
  rw [this] at hj
  cases hj

theorem Fits.le_weight (h : l.Fits weight n m i) {r j : Nat} (hr : r < i) (hj : j < m) :
    l.rowLabel.getD r 0 + l.colLabel.getD j 0 ≤ weight r j := by
  have hslack := h.slack_nonneg r hr j hj
  rw [Search.slackOf] at hslack
  omega

theorem Fits.eq_weight (h : l.Fits weight n m i) {j r : Nat} (hown : l.ownerOf j = some r) :
    l.rowLabel.getD r 0 + l.colLabel.getD j 0 = weight r j := by
  have hslack := h.tight j r hown
  rw [Search.slackOf] at hslack
  omega

end Fits

theorem ownerOf_start (n m j : Nat) : (Labeling.start n m).ownerOf j = none := by
  by_cases hj : j < m <;> simp [start, ownerOf, Array.getD_eq_getD_getElem?, hj]

theorem rowLabel_start (n m r : Nat) : (Labeling.start n m).rowLabel.getD r 0 = 0 := by
  by_cases hr : r < n <;> simp [start, Array.getD_eq_getD_getElem?, hr]

theorem colLabel_start (n m j : Nat) : (Labeling.start n m).colLabel.getD j 0 = 0 := by
  by_cases hj : j < m <;> simp [start, Array.getD_eq_getD_getElem?, hj]

theorem start_ready (weight : Nat → Nat → Int) (n m : Nat) :
    (Labeling.start n m).Ready weight n m 0 := by
  have hfree : ∀ j r, (Labeling.start n m).ownerOf j ≠ some r := by
    intro j r hj
    rw [ownerOf_start] at hj
    cases hj
  refine ⟨?_, fun r _ => rowLabel_start n m r⟩
  constructor
  · simp [start]
  · simp [start]
  · simp [start]
  · intro r hr
    omega
  · exact fun j r hj => absurd hj (hfree j r)
  · exact fun j => Int.le_of_eq (colLabel_start n m j)
  · exact fun j _ => colLabel_start n m j
  · intro r
    simp [ownerOf_start]
  · exact fun j k r hj => absurd hj (hfree j r)

end Labeling

namespace Search

variable {tight : Nat → Nat → Prop} {matched : Nat → Prop} {rows : Nat → Prop}
variable {owner : Array (Option Nat)} {root col : Nat}

/-- The owners while the columns of a path change hands: `col` is the next to get a row, and no
longer counts.  All other owners are tight with their columns and distinct, they are `rows`, and the
columns that were matched still are. -/
structure Vacant (tight : Nat → Nat → Prop) (matched rows : Nat → Prop)
    (owner : Array (Option Nat)) (col : Nat) : Prop where
  col_lt : col < owner.size
  tight : ∀ j r, j ≠ col → owner.getD j none = some r → tight r j
  inj : ∀ j k r, j ≠ col → k ≠ col → owner.getD j none = some r → owner.getD k none = some r → j = k
  rows_iff : ∀ r, (∃ j, j ≠ col ∧ owner.getD j none = some r) ↔ rows r
  matched : ∀ j, j ≠ col → matched j → owner.getD j none ≠ none

/-- The owners once every column of a path has changed hands. -/
structure Handed (tight : Nat → Nat → Prop) (matched rows : Nat → Prop)
    (owner : Array (Option Nat)) (root : Nat) : Prop where
  tight : ∀ j r, owner.getD j none = some r → tight r j
  inj : ∀ j k r, owner.getD j none = some r → owner.getD k none = some r → j = k
  rows_iff : ∀ r, (∃ j, owner.getD j none = some r) ↔ rows r ∨ r = root
  matched : ∀ j, matched j → owner.getD j none ≠ none

theorem Vacant.getD_set (h : Vacant tight matched rows owner col) (new : Option Nat) (j : Nat) :
    (owner.setIfInBounds col new).getD j none = if col = j then new else owner.getD j none := by
  rw [getD_setIfInBounds]
  by_cases hj : col = j
  · subst hj
    simp [h.col_lt]
  · simp [hj]

/-- Giving the vacant column the row of another one makes that one vacant. -/
theorem Vacant.hand (h : Vacant tight matched rows owner col) {back r : Nat} (hne : back ≠ col)
    (hlt : back < owner.size) (hback : owner.getD back none = some r) (hr : tight r col) :
    Vacant tight matched rows (owner.setIfInBounds col (owner.getD back none)) back := by
  have hget : ∀ j, (owner.setIfInBounds col (owner.getD back none)).getD j none =
      if col = j then some r else owner.getD j none := fun j => by
    rw [hback, h.getD_set]
  constructor
  · rwa [Array.size_setIfInBounds]
  · intro j q hj hq
    rw [hget] at hq
    by_cases hcol : col = j
    · subst hcol
      simp only [if_true, Option.some.injEq] at hq
      exact hq ▸ hr
    · rw [if_neg hcol] at hq
      exact h.tight j q (Ne.symm hcol) hq
  · intro j k q hj hk hqj hqk
    rw [hget] at hqj hqk
    by_cases hcj : col = j
    · by_cases hck : col = k
      · exact hcj.symm.trans hck
      · rw [if_pos hcj] at hqj
        rw [if_neg hck] at hqk
        exact absurd (h.inj k back q (Ne.symm hck) hne hqk (hback.trans hqj)) hk
    · rw [if_neg hcj] at hqj
      by_cases hck : col = k
      · rw [if_pos hck] at hqk
        exact absurd (h.inj j back q (Ne.symm hcj) hne hqj (hback.trans hqk)) hj
      · rw [if_neg hck] at hqk
        exact h.inj j k q (Ne.symm hcj) (Ne.symm hck) hqj hqk
  · intro q
    rw [← h.rows_iff q]
    constructor
    · rintro ⟨j, hj, hq⟩
      rw [hget] at hq
      by_cases hcj : col = j
      · rw [if_pos hcj] at hq
        exact ⟨back, hne, hback.trans hq⟩
      · rw [if_neg hcj] at hq
        exact ⟨j, Ne.symm hcj, hq⟩
    · rintro ⟨j, hj, hq⟩
      by_cases hjb : j = back
      · subst hjb
        exact ⟨col, Ne.symm hne, by rw [hget, if_pos rfl, ← hback, hq]⟩
      · exact ⟨j, hjb, by rw [hget, if_neg (Ne.symm hj), hq]⟩
  · intro j hj hm
    rw [hget]
    by_cases hcj : col = j
    · simp [hcj]
    · rw [if_neg hcj]
      exact h.matched j (Ne.symm hcj) hm

/-- Giving the vacant column to the root ends the exchange. -/
theorem Vacant.fill (h : Vacant tight matched rows owner col) (hroot : ¬rows root)
    (hr : tight root col) :
    Handed tight matched rows (owner.setIfInBounds col (some root)) root := by
  have hget := h.getD_set (some root)
  have hout : ∀ j, col ≠ j → owner.getD j none ≠ some root := fun j hj hown =>
    hroot ((h.rows_iff root).mp ⟨j, Ne.symm hj, hown⟩)
  constructor
  · intro j q hq
    rw [hget] at hq
    by_cases hcj : col = j
    · rw [if_pos hcj, Option.some.injEq] at hq
      exact hcj ▸ hq ▸ hr
    · rw [if_neg hcj] at hq
      exact h.tight j q (Ne.symm hcj) hq
  · intro j k q hqj hqk
    rw [hget] at hqj hqk
    by_cases hcj : col = j <;> by_cases hck : col = k
    · exact hcj.symm.trans hck
    · rw [if_pos hcj, Option.some.injEq] at hqj
      rw [if_neg hck, ← hqj] at hqk
      exact absurd hqk (hout k hck)
    · rw [if_pos hck, Option.some.injEq] at hqk
      rw [if_neg hcj, ← hqk] at hqj
      exact absurd hqj (hout j hcj)
    · rw [if_neg hcj] at hqj
      rw [if_neg hck] at hqk
      exact h.inj j k q (Ne.symm hcj) (Ne.symm hck) hqj hqk
  · intro q
    rw [← h.rows_iff q]
    constructor
    · rintro ⟨j, hq⟩
      rw [hget] at hq
      by_cases hcj : col = j
      · rw [if_pos hcj, Option.some.injEq] at hq
        exact .inr hq.symm
      · rw [if_neg hcj] at hq
        exact .inl ⟨j, Ne.symm hcj, hq⟩
    · rintro (⟨j, hj, hq⟩ | rfl)
      · exact ⟨j, by rw [hget, if_neg (Ne.symm hj), hq]⟩
      · exact ⟨col, by rw [hget, if_pos rfl]⟩
  · intro j hm
    rw [hget]
    by_cases hcj : col = j
    · simp [hcj]
    · rw [if_neg hcj]
      exact h.matched j (Ne.symm hcj) hm

/-- Every column of a path is tight with the row that it will be handed: that of the next column,
or the root. -/
def TightPath (tight : Nat → Nat → Prop) (owner : Array (Option Nat)) (root : Nat) :
    List Nat → Prop
  | [] => True
  | [col] => tight root col
  | col :: back :: rest =>
    (∃ r, owner.getD back none = some r ∧ tight r col) ∧ TightPath tight owner root (back :: rest)

/-- The owners of the columns after the first one decide whether a path is tight. -/
theorem TightPath.congr {other : Array (Option Nat)} {path : List Nat}
    (h : TightPath tight owner root path)
    (heq : ∀ c ∈ path.tail, other.getD c none = owner.getD c none) :
    TightPath tight other root path := by
  induction path with
  | nil => trivial
  | cons col path ih =>
    cases path with
    | nil => exact h
    | cons back rest =>
      obtain ⟨⟨r, hr, ht⟩, hrest⟩ := h
      refine ⟨⟨r, (heq back List.mem_cons_self).trans hr, ht⟩, ih hrest fun c hc => ?_⟩
      exact heq c (List.mem_cons_of_mem _ hc)

/-- A flip along a tight path hands every column over. -/
theorem flip_handed {path : List Nat} (h : Vacant tight matched rows owner col)
    (hroot : ¬rows root) (hnodup : (col :: path).Nodup) (hlt : ∀ c ∈ path, c < owner.size)
    (hpath : TightPath tight owner root (col :: path)) :
    Handed tight matched rows (flip owner root (col :: path)) root := by
  induction path generalizing owner col with
  | nil => exact h.fill hroot hpath
  | cons back rest ih =>
    obtain ⟨⟨r, hr, ht⟩, hrest⟩ := hpath
    obtain ⟨hout, hnodup'⟩ := List.nodup_cons.mp hnodup
    have hne : back ≠ col := fun he => hout (he ▸ List.mem_cons_self)
    have hback := hlt back List.mem_cons_self
    refine ih (h.hand hne hback hr ht) hnodup' ?_ ?_
    · intro c hc
      rw [Array.size_setIfInBounds]
      exact hlt c (List.mem_cons_of_mem _ hc)
    · refine hrest.congr fun c hc => ?_
      have hcol : col ≠ c := fun he => hout (he ▸ List.mem_cons_of_mem _ hc)
      simp [hcol]

theorem size_flip (owner : Array (Option Nat)) (root : Nat) (path : List Nat) :
    (flip owner root path).size = owner.size := by
  fun_induction flip owner root path with
  | case1 => rfl
  | case2 => exact Array.size_setIfInBounds
  | case3 owner col back rest ih => rw [ih, Array.size_setIfInBounds]

end Search

end PinRing.Assignment
