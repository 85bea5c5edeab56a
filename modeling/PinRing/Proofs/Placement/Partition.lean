import Mathlib.Order.Interval.Finset.Nat
import Mathlib.Tactic.Common
import PinRing.Proofs.Placement.Sectioning

/-! The division of a boundary.  The runs are the maximal stretches of slots with one edge, and the
sections cover the available slots, each of them once.  Neighbouring slots of one edge are parted
only where a run has been cut, at multiples of the section size from its first slot. -/

namespace PinRing

/-- The slot of index `i` lies in the section. -/
def Section.Covers (s : Section) (i : Nat) : Prop := s.first ≤ i ∧ i < s.stop

namespace Boundary

/-- The edge of a slot, if there is one of that index. -/
def edgeAt (b : Boundary) (i : Nat) : Option Edge := b.slots[i]?.map (·.edge)

/-- From slot `a` on all slots up to `i` are on one edge, and the slot before `a` is not. -/
structure StartsRun (b : Boundary) (a i : Nat) : Prop where
  le : a ≤ i
  same : ∀ j, a ≤ j → j ≤ i → b.edgeAt j = b.edgeAt i
  maximal : ∀ j, j + 1 = a → b.edgeAt j ≠ b.edgeAt i

/-! ### Maximal runs -/

/-- The edges of a list whose first member has index `i` fall into runs: each run has slots, all of
one edge, the slot before it is on another, and every slot is in a run. -/
structure Runs (i : Nat) (es : List Edge) (rs : List EdgeRun) : Prop where
  slots : ∀ r ∈ rs, r.first < r.stop
  same : ∀ r ∈ rs, ∀ k, r.first ≤ i + k → i + k < r.stop → es[k]? = some r.edge
  maximal : ∀ r ∈ rs, ∀ k, i + k + 1 = r.first → es[k]? ≠ some r.edge
  covers : ∀ k < es.length, ∃ r ∈ rs, r.first ≤ i + k ∧ i + k < r.stop

/-- The runs of a list begin with its first member. -/
theorem exists_runsFrom_cons (i : Nat) (e : Edge) (es : List Edge) :
    ∃ stop rs, runsFrom i (e :: es) = ⟨e, i, stop⟩ :: rs := by
  rw [runsFrom]
  split
  · exact ⟨_, _, rfl⟩
  · split
    · rename_i hedge
      subst hedge
      exact ⟨_, _, rfl⟩
    · exact ⟨_, _, rfl⟩

section Induction

variable {i stop : Nat} {e e' : Edge} {es : List Edge} {rs : List EdgeRun}

/-- One more edge in front leaves a later run as it is. -/
theorem Runs.later (h : Runs (i + 1) es rs) {r : EdgeRun} (hr : r ∈ rs) (hfirst : i < r.first)
    (hnew : r.first = i + 1 → e ≠ r.edge) :
    (∀ k, r.first ≤ i + k → i + k < r.stop → (e :: es)[k]? = some r.edge) ∧
      ∀ k, i + k + 1 = r.first → (e :: es)[k]? ≠ some r.edge := by
  constructor
  · intro k hle hlt
    cases k with
    | zero => omega
    | succ k => exact h.same r hr k (by omega) (by omega)
  · intro k hk
    cases k with
    | zero =>
      rw [List.getElem?_cons_zero]
      exact fun heq => hnew (by omega) (Option.some.inj heq)
    | succ k => exact h.maximal r hr k (by omega)

/-- An edge that is the same as the next one makes the first run longer. -/
theorem Runs.extend (h : Runs (i + 1) (e :: es) (⟨e, i + 1, stop⟩ :: rs))
    (hlater : ∀ r ∈ rs, i + 1 < r.first) : Runs i (e :: e :: es) (⟨e, i, stop⟩ :: rs) := by
  have hslots := List.forall_mem_cons.mp h.slots
  have htail : ∀ r ∈ rs, _ := fun r hr => h.later (e := e) (List.mem_cons_of_mem _ hr)
    (Nat.lt_of_succ_lt (hlater r hr)) fun heq => absurd heq (hlater r hr).ne'
  constructor
  · exact List.forall_mem_cons.mpr ⟨Nat.lt_of_succ_lt hslots.1, hslots.2⟩
  · refine List.forall_mem_cons.mpr ⟨fun k _ hlt => ?_, fun r hr => (htail r hr).1⟩
    simp only at hlt
    cases k with
    | zero => rfl
    | succ k => exact h.same _ List.mem_cons_self k (Nat.le_add_right _ k) (by simp only; omega)
  · refine List.forall_mem_cons.mpr ⟨fun k hk => ?_, fun r hr => (htail r hr).2⟩
    simp only at hk
    omega
  · intro k hk
    cases k with
    | zero => exact ⟨_, List.mem_cons_self, Nat.le_refl i, Nat.lt_of_succ_lt hslots.1⟩
    | succ k =>
      obtain ⟨r, hr, hle, hlt⟩ := h.covers k (Nat.lt_of_succ_lt_succ hk)
      rcases List.mem_cons.mp hr with rfl | hr
      · exact ⟨_, List.mem_cons_self, Nat.le_add_right i _, by simp only at hlt ⊢; omega⟩
      · exact ⟨r, List.mem_cons_of_mem _ hr, by omega, by omega⟩

/-- An edge that differs from the next one is a run of its own. -/
theorem Runs.start (h : Runs (i + 1) (e' :: es) (⟨e', i + 1, stop⟩ :: rs)) (hne : e ≠ e')
    (hlater : ∀ r ∈ rs, i + 1 < r.first) :
    Runs i (e :: e' :: es) (⟨e, i, i + 1⟩ :: ⟨e', i + 1, stop⟩ :: rs) := by
  have htail : ∀ r ∈ ⟨e', i + 1, stop⟩ :: rs, _ := fun r hr => h.later (e := e) hr
    (by rcases List.mem_cons.mp hr with rfl | hr
        · exact Nat.lt_succ_self i
        · exact Nat.lt_of_succ_lt (hlater r hr))
    (by rcases List.mem_cons.mp hr with rfl | hr
        · exact fun _ => hne
        · exact fun heq => absurd heq (hlater r hr).ne')
  constructor
  · exact List.forall_mem_cons.mpr ⟨Nat.lt_succ_self i, h.slots⟩
  · refine List.forall_mem_cons.mpr ⟨fun k _ hlt => ?_, fun r hr => (htail r hr).1⟩
    obtain rfl : k = 0 := by simp only at hlt; omega
    rfl
  · refine List.forall_mem_cons.mpr ⟨fun k hk => ?_, fun r hr => (htail r hr).2⟩
    simp only at hk
    omega
  · intro k hk
    cases k with
    | zero => exact ⟨_, List.mem_cons_self, Nat.le_refl i, Nat.lt_succ_self i⟩
    | succ k =>
      obtain ⟨r, hr, hle, hlt⟩ := h.covers k (Nat.lt_of_succ_lt_succ hk)
      exact ⟨r, List.mem_cons_of_mem _ hr, by omega, by omega⟩

theorem runsFrom_runs (i : Nat) (es : List Edge) : Runs i es (runsFrom i es) := by
  induction es generalizing i with
  | nil => exact ⟨nofun, nofun, nofun, nofun⟩
  | cons e es ih =>
    have hrest := ih (i + 1)
    have hbehind := runsFrom_behind (i + 1) es
    rw [runsFrom]
    cases es with
    | nil => constructor <;> simp +contextual [runsFrom]; omega
    | cons e' es =>
      obtain ⟨stop, rs, hruns⟩ := exists_runsFrom_cons (i + 1) e' es
      rw [hruns] at hrest hbehind ⊢
      have hlater : ∀ r ∈ rs, i + 1 < r.first := fun r hr =>
        Nat.lt_of_lt_of_le (hrest.slots _ List.mem_cons_self)
          ((List.pairwise_cons.mp hbehind).1 r hr)
      by_cases hedge : e' = e
      · subst hedge
        simpa using hrest.extend hlater
      · simpa [hedge] using hrest.start (Ne.symm hedge) hlater

end Induction

variable {b : Boundary} {size i : Nat} {r : EdgeRun} {s : Section}

/-- Of stretches that lie one behind the other only one has a given index. -/
theorem eq_of_behind {α : Type} {first stop : α → Nat} {l : List α}
    (h : l.Pairwise fun a b => stop a ≤ first b) {a b : α} (ha : a ∈ l) (hb : b ∈ l)
    (hia : first a ≤ i ∧ i < stop a) (hib : first b ≤ i ∧ i < stop b) : a = b := by
  induction h with
  | nil => cases ha
  | cons hbehind _ ih =>
    cases ha with
    | head =>
      cases hb with
      | head => rfl
      | tail _ hb =>
        have := hbehind b hb
        omega
    | tail _ ha =>
      cases hb with
      | head =>
        have := hbehind a ha
        omega
      | tail _ hb => exact ih ha hb

theorem lt_size_of_edgeAt {e : Edge} (h : b.edgeAt i = some e) : i < b.size := by
  obtain ⟨slot, hslot, -⟩ := Option.map_eq_some_iff.mp h
  exact (Array.getElem?_eq_some_iff.mp hslot).1

theorem edges_getElem? (b : Boundary) (i : Nat) :
    (b.slots.toList.map (·.edge))[i]? = b.edgeAt i := by
  rw [List.getElem?_map, Array.getElem?_toList, edgeAt]

theorem edgeRuns_runs (b : Boundary) : Runs 0 (b.slots.toList.map (·.edge)) b.edgeRuns :=
  runsFrom_runs 0 _

theorem edgeAt_of_run (hr : r ∈ b.edgeRuns) (hle : r.first ≤ i) (hlt : i < r.stop) :
    b.edgeAt i = some r.edge := by
  rw [← b.edges_getElem? i]
  exact b.edgeRuns_runs.same r hr i (by omega) (by omega)

/-- The first slot of a run is where the run of each of its slots starts. -/
theorem startsRun_of_run (hr : r ∈ b.edgeRuns) (hle : r.first ≤ i) (hlt : i < r.stop) :
    b.StartsRun r.first i := by
  have hi := edgeAt_of_run hr hle hlt
  refine ⟨hle, fun j hj hji => ?_, fun j hj => ?_⟩
  · rw [hi, edgeAt_of_run hr hj (by omega)]
  · rw [hi, ← b.edges_getElem? j]
    exact b.edgeRuns_runs.maximal r hr j (by omega)

theorem exists_run (hi : i < b.size) : ∃ r ∈ b.edgeRuns, r.first ≤ i ∧ i < r.stop := by
  obtain ⟨r, hr, hle, hlt⟩ := b.edgeRuns_runs.covers i (by simpa [Boundary.size] using hi)
  exact ⟨r, hr, by omega, by omega⟩

/-- A slot lies in one run only. -/
theorem run_unique {r' : EdgeRun} (hr : r ∈ b.edgeRuns) (hr' : r' ∈ b.edgeRuns)
    (hi : r.first ≤ i ∧ i < r.stop) (hi' : r'.first ≤ i ∧ i < r'.stop) : r = r' :=
  eq_of_behind (runsFrom_behind 0 _) hr hr' hi hi'

/-- Neighbouring slots on one edge lie in one run. -/
theorem run_of_neighbours (hsame : b.edgeAt i = b.edgeAt (i + 1)) (hlt : i + 1 < b.size) :
    ∃ r ∈ b.edgeRuns, r.first ≤ i ∧ i + 1 < r.stop := by
  obtain ⟨r, hr, hle, hstop⟩ := exists_run hlt
  refine ⟨r, hr, ?_, hstop⟩
  by_contra hfirst
  have hmaximal := b.edgeRuns_runs.maximal r hr i (by omega)
  rw [b.edges_getElem?, hsame] at hmaximal
  exact hmaximal (edgeAt_of_run hr hle hstop)

/-! ### Sections -/

/-- A section is a stretch of a run, cut from it at multiples of the section size. -/
theorem exists_run_of_section (hs : s ∈ b.sections size) :
    ∃ r ∈ b.edgeRuns, s.edge = r.edge ∧ ∃ k, s.first = r.first + k * size ∧
      s.stop = min (r.first + (k + 1) * size) r.stop := by
  obtain ⟨r, hr, hs⟩ := List.mem_flatMap.mp (List.mem_filter.mp hs).1
  obtain ⟨bounds, hbounds, rfl⟩ := List.mem_map.mp hs
  obtain ⟨k, -, rfl⟩ := List.mem_map.mp hbounds
  exact ⟨r, hr, rfl, k, rfl, rfl⟩

/-- Every slot of a run is in one of the stretches into which the run is cut. -/
theorem exists_stretch (hsize : 0 < size) (hle : r.first ≤ i) (hlt : i < r.stop) :
    ∃ a ∈ r.stretches size, a.1 ≤ i ∧ i < a.2 := by
  have hmod := Nat.mod_lt (i - r.first) hsize
  have hdiv := Nat.div_add_mod' (i - r.first) size
  have hnumber : (i - r.first) / size < (r.stop - r.first + size - 1) / size := by
    rw [Nat.lt_iff_add_one_le, ← Nat.add_div_right _ hsize]
    exact Nat.div_le_div_right (by omega)
  refine ⟨_, List.mem_map.mpr ⟨(i - r.first) / size, List.mem_range.mpr hnumber, rfl⟩, ?_⟩
  simp only [Nat.succ_mul]
  omega

theorem exists_section (hsize : 0 < size) (hi : b.isAvailable i) :
    ∃ s ∈ b.sections size, s.Covers i := by
  have hlt : i < b.size := by
    obtain ⟨slot, hslot, -⟩ := (Option.any_eq_true _ _).mp hi
    exact (Array.getElem?_eq_some_iff.mp hslot).1
  obtain ⟨r, hr, hle, hstop⟩ := exists_run hlt
  obtain ⟨a, ha, hcovers⟩ := exists_stretch hsize hle hstop
  refine ⟨.ofRange b a.1 a.2 r.edge, List.mem_filter.mpr ⟨List.mem_flatMap.mpr
    ⟨r, hr, List.mem_map.mpr ⟨a, ha, rfl⟩⟩, ?_⟩, hcovers⟩
  have hfree : i ∈ b.free a.1 a.2 := mem_free.mpr ⟨hcovers.1, hcovers.2, hi⟩
  simpa [Section.ofRange, countFree] using List.length_pos_of_mem hfree

/-- A section ends before its run does only at a multiple of the section size from the first slot of
the run, and begins at one. -/
theorem dvd_of_parted (hs : s ∈ b.sections size) (hsame : b.edgeAt i = b.edgeAt (i + 1))
    (hlt : i + 1 < b.size) (hparted : ¬(s.Covers i ↔ s.Covers (i + 1))) :
    ∃ a, b.StartsRun a i ∧ size ∣ i + 1 - a := by
  obtain ⟨r, hr, hle, hstop⟩ := run_of_neighbours hsame hlt
  obtain ⟨r', hr', -, k, hfirst, hend⟩ := exists_run_of_section hs
  refine ⟨r.first, startsRun_of_run hr hle (by omega), ?_⟩
  unfold Section.Covers at hparted
  have hslots := b.edgeRuns_runs.slots r' hr'
  by_cases hi : s.first ≤ i ∧ i < s.stop
  · obtain rfl := run_unique hr hr' ⟨hle, by omega⟩ ⟨by omega, by omega⟩
    exact ⟨k + 1, by rw [Nat.mul_comm]; omega⟩
  · have hi' : s.first ≤ i + 1 ∧ i + 1 < s.stop := by tauto
    obtain rfl := run_unique hr hr' (i := i + 1) ⟨by omega, hstop⟩ ⟨by omega, by omega⟩
    exact ⟨k, by rw [Nat.mul_comm]; omega⟩

/-- The number of available slots from `first` up to `stop`. -/
theorem countFree_eq_card (b : Boundary) (first stop : Nat) :
    b.countFree first stop = ((Finset.Ico first stop).filter (b.isAvailable ·)).card := by
  have hnodup : (b.free first stop).Nodup := List.Nodup.filter _ List.nodup_range'
  rw [countFree, ← List.toFinset_card_of_nodup hnodup]
  congr 1
  ext i
  simp only [List.mem_toFinset, mem_free, Finset.mem_filter, Finset.mem_Ico, and_assoc]

/-- Sections of at least one slot divide the boundary: they come one behind the other, none with
more slots than asked for and each with its slots on one edge and its room the number of those that
are available; every available slot is in one of them, and two neighbouring slots of one edge are
parted only at a multiple of the size from the start of their run. -/
theorem sectionsBy_divides (b : Boundary) {size : Int} (hsize : 1 ≤ size) :
    ∃ secs, b.sectionsBy size = .ok secs ∧
      secs.Pairwise (fun s t => s.stop ≤ t.first) ∧
      (∀ s ∈ secs, s.first < s.stop ∧ s.stop ≤ b.size ∧ (s.stop : Int) - s.first ≤ size ∧
        (∀ i, s.Covers i → b.edgeAt i = some s.edge) ∧
        s.room = ((Finset.Ico s.first s.stop).filter (b.isAvailable ·)).card ∧ 0 < s.room) ∧
      (∀ i, b.isAvailable i → ∃! s, s ∈ secs ∧ s.Covers i) ∧
      ∀ i e, b.edgeAt i = some e → b.edgeAt (i + 1) = some e →
        (∃ s ∈ secs, ¬(s.Covers i ↔ s.Covers (i + 1))) →
          ∃ a, b.StartsRun a i ∧ size ∣ i + 1 - a := by
  obtain ⟨n, rfl⟩ := Int.eq_ofNat_of_zero_le (by omega : 0 ≤ size)
  have hn : 0 < n := by omega
  refine ⟨b.sections n, ?_, b.sections_behind n, fun s hs => ?_, fun i hi => ?_, ?_⟩
  · simp [sectionsBy, hn.ne']
  · obtain ⟨r, hr, hedge, k, hfirst, hstop⟩ := exists_run_of_section hs
    obtain ⟨hbound, hpos⟩ := b.sections_bounds n s hs
    have hroom := b.sections_room n s hs
    have hsucc : (k + 1) * n = k * n + n := Nat.succ_mul k n
    obtain ⟨i, hi⟩ := List.exists_mem_of_length_pos hpos
    obtain ⟨hle, hlt, -⟩ := mem_free.mp hi
    refine ⟨by omega, hbound, by omega, fun i hi => ?_, ?_, by omega⟩
    · rw [hedge]
      unfold Section.Covers at hi
      exact edgeAt_of_run hr (by omega) (by omega)
    · rw [hroom, countFree_eq_card]
  · obtain ⟨s, hs, hcovers⟩ := exists_section hn hi
    exact ⟨s, ⟨hs, hcovers⟩, fun t ht =>
      eq_of_behind (b.sections_behind n) ht.1 hs ht.2 hcovers⟩
  · rintro i e hi hnext ⟨s, hs, hparted⟩
    obtain ⟨a, hstart, hdvd⟩ :=
      dvd_of_parted hs (hi.trans hnext.symm) (lt_size_of_edgeAt hnext) hparted
    have hle := hstart.le
    have hcast : ((i + 1 - a : Nat) : Int) = i + 1 - a := by omega
    exact ⟨a, hstart, hcast ▸ Int.natCast_dvd_natCast.mpr hdvd⟩

/-- Three slots on the bottom edge, the first out of use, and two on the right edge, the last of
them used. -/
def corner : Boundary :=
  { slots := #[⟨⟨10, 0⟩, 1, .bottom, true, false⟩, ⟨⟨20, 0⟩, 1, .bottom, false, false⟩,
      ⟨⟨30, 0⟩, 1, .bottom, false, false⟩, ⟨⟨90, 40⟩, 1, .right, false, false⟩,
      ⟨⟨90, 50⟩, 1, .right, false, true⟩] }

/-- The bottom edge is cut behind its second slot. -/
theorem sectionsBy_divides_corner :
    (1 : Int) ≤ 2 ∧ ∃ secs, corner.sectionsBy 2 = .ok secs ∧
      secs.map (fun s => (s.first, s.stop, s.room)) = [(0, 2, 1), (2, 3, 1), (3, 5, 1)] ∧
      (∃! s, s ∈ secs ∧ s.Covers 2) ∧ ∃ a, corner.StartsRun a 1 ∧ (2 : Int) ∣ 1 + 1 - a := by
  obtain ⟨secs, hsecs, -, -, hcovered, hcut⟩ :=
    sectionsBy_divides corner (by decide : (1 : Int) ≤ 2)
  have heq : corner.sections 2 = secs := Except.ok.inj hsecs
  refine ⟨by decide, secs, hsecs, by rw [← heq]; rfl, hcovered 2 rfl, hcut 1 .bottom rfl rfl ?_⟩
  refine ⟨{ first := 0, stop := 2, edge := .bottom, room := 1 }, ?_, ?_⟩
  · rw [← heq]
    exact List.mem_cons_self
  · unfold Section.Covers
    decide

end Boundary

end PinRing
